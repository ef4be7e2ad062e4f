import Reshape.Proofs.Machine.Budget
import Reshape.Proofs.Move.Correct
import Reshape.Proofs.Move.Slots

/-!
# What a move counts

The program of a move that succeeds has counted each of its instructions once, the body of its loop
once for each round, and the instruction of its jump if that was taken. How many rounds there are
can be read off the document: off the source array in front of the loop, or off the target array
behind it.

* `Move.exists_spent`, what is counted in terms of the effort of the move;
* `Move.exists_shown`, the scene behind the front of a program;
* `Direct.exists_items_of_fill`, how long the target array is that has been filled;
* `Move.program_count`, the count of a program, for the three strategies.
-/

namespace Reshape

variable {limit fuel : Nat}

namespace Direct

theorem itemCountAt_nil_le {node : Json} {count : Nat} (h : size node = .ok count) :
    itemCountAt [] node ≤ count := by
  have hlength := size_eq_ok.1 h
  cases node with
  | array items => exact Nat.le_of_eq (Option.some.inj hlength)
  | _ => exact Nat.zero_le count

/-- An array that has been filled has as many items as it had, and one at least. -/
theorem exists_items_of_fill {after : List Hop} {value node filled : Json} {count : Nat}
    (hcount : size node = .ok count)
    (hfold : (List.range (max 1 count)).foldlM (fun array index =>
      writeAt limit (.item (some index) :: after) value array)
        (if count = 0 then Move.singleItem else node) = .ok filled) :
    ∃ items, filled = .array items ∧ items.length = max 1 count := by
  have hwrites : writeSlots limit [] after 0 (fun _ => value) (max 1 count)
      (if count = 0 then Move.singleItem else node) = .ok filled := by
    simp only [writeSlots, Nat.zero_add]
    exact hfold
  obtain ⟨items, hitems, hlength⟩ := exists_items_of_writeSlots hwrites (by omega)
  have hstart := itemCountAt_nil_le (Move.size_ensured hcount)
  rw [Nat.zero_add, trailOf, List.map_nil, Nat.max_eq_right hstart] at hlength
  exact ⟨items, Option.some.inj hitems, hlength⟩

end Direct

namespace Move

variable {move : Move} {program rest : Program} {m m₁ m' : Machine}

/-- A run that succeeds has spent the effort of the move, and leaves the document of the direct
copy. -/
theorem exists_spent (hp : move.program = .ok program) (hpadding : m.limits.arrayPadding < 2 ^ 52)
    (hrounds : m.limits.loopIterations < 2 ^ 52) (hsize : m.document.SizedBelow (2 ^ 52))
    (ho : Machine.run fuel program m = some (.done m')) :
    ∃ effort, move.effort m.limits.arrayPadding m.document = .ok effort ∧
      move.direct m.limits.arrayPadding m.document = .ok m'.document ∧
      effort.rounds ≤ m.limits.loopIterations ∧
      m'.operations = m.operations + effort.instructions program := by
  obtain ⟨o, ho', hagrees⟩ := program_spends hp hpadding hrounds hsize (Nat.le_refl _)
  cases Machine.run_eq_of_run ho ho'
  cases hagrees with
  | done hr hm hq =>
    obtain ⟨hdocument, effort, heffort, hle, htotal⟩ := hq
    exact ⟨effort, heffort, by rw [hr, hm.document, hdocument], hle, hm.operations.trans htotal⟩

/-- Behind a reset and a part of a program, a machine shows the scene that the part leads to. -/
theorem exists_shown {α : Type} {result : Except Fault α} {Q : α → Scene → Prop}
    (h : ∀ fuel, Program.nesting rest ≤ fuel → Realizes m.limits fuel rest
      ⟨.atRoot m.document, [], [], [], m.operations + 1⟩ result Q)
    (ho : Machine.run fuel (.reset :: rest) m = some (.done m₁)) :
    ∃ a s, result = .ok a ∧ m₁.At m.limits s ∧ Q a s := by
  obtain ⟨o, ho', hagrees⟩ := run_reset_agrees (Nat.le_refl _) h
  cases Machine.run_eq_of_run ho ho'
  cases hagrees with
  | done hr hm hq => exact ⟨_, _, hr, hm, hq⟩

/-! ### From items to items -/

/-- A program has counted its instructions, and the body of its loop for each child of the node that
is at the array of the source path when the loop starts. -/
def CountsItems (source : List Component) (program : Program) (fuel : Nat) (m m' : Machine) : Prop :=
  ∃ (around : ArrayPath) (front body : Program) (m₁ : Machine) (node : Json) (size : Nat),
    source = around.components ∧ around.WellFormed ∧
    program = front ++ countingLoop body ∧ Machine.run fuel front m = some (.done m₁) ∧
    Json.resolve (trailOf around.hops) m₁.document = some node ∧ node.length? = some size ∧
    size ≤ m.limits.loopIterations ∧
    m'.operations = m.operations + program.length + size * body.length

/-- A program has counted its instructions, and the body of its loop for each item that the target
array has in the end. It has counted one instruction more if there was no item in the beginning. -/
def CountsEach (target : List Component) (program : Program) (fuel : Nat) (m m' : Machine) : Prop :=
  ∃ (around : ArrayPath) (front body : Program) (m₁ : Machine) (node : Json) (size : Nat)
      (items : List Json),
    target = around.components ∧ around.WellFormed ∧
    program = front ++ (ensureItem ++
      ([.storeSize, .storeGiven (Json.ofInt 0)] ++ countingLoop body)) ∧
    Machine.run fuel front m = some (.done m₁) ∧
    Json.resolve (trailOf around.hops) m₁.document = some node ∧ node.length? = some size ∧
    Json.resolve (trailOf around.hops) m'.document = some (.array items) ∧
    items.length ≤ m.limits.loopIterations ∧
    m'.operations = m.operations + program.length + items.length * body.length +
      if size = 0 then 1 else 0

theorem shown_of_itemsFound {offset : Option (List Hop)} {source : List Hop} {document : Json}
    {found : Nat × Place × Nat}
    (h : Direct.itemsFound limit offset source document = .ok found) :
    found.2.1.trail = trailOf source ∧ found.2.1.node.length? = some found.2.2 := by
  obtain ⟨_, -, h⟩ := bind_eq_ok.1 h
  obtain ⟨place, hplace, h⟩ := bind_eq_ok.1 h
  obtain ⟨count, hcount, h⟩ := bind_eq_ok.1 h
  cases h
  exact ⟨trail_of_locate hplace, size_eq_ok.1 hcount⟩

theorem trail_of_arrayFound {source array : List Hop} {document : Json}
    {found : Json × Place × Nat}
    (h : Direct.arrayFound limit source array document = .ok found) :
    found.2.1.trail = trailOf array := by
  obtain ⟨_, -, h⟩ := bind_eq_ok.1 h
  obtain ⟨place, hplace, h⟩ := bind_eq_ok.1 h
  obtain ⟨count, -, h⟩ := bind_eq_ok.1 h
  cases h
  exact trail_of_locate hplace

/-- The count of a program with a loop behind a straight front. -/
theorem instructions_of_front {front : Program} (h : front.IsStraight) (effort : Effort)
    {behind body : Program} (hbody : Program.loopBody behind = body) :
    effort.instructions (front ++ behind) =
      (front ++ behind).length + effort.rounds * body.length + effort.jumps := by
  rw [Effort.instructions, Program.loopBody_append h.not_mem, hbody]

theorem countsItems_of_run {source target : List Component}
    (hpaths : move.paths = .ok (source, target))
    (hstrategy : Strategy.select source target = .patternMove)
    (hcopy : move.copy source target = .ok rest) {effort : Effort}
    (heffort : move.effort m.limits.arrayPadding m.document = .ok effort)
    (hrounds : effort.rounds ≤ m.limits.loopIterations)
    (htotal : m'.operations = m.operations + effort.instructions (.reset :: rest))
    (ho : Machine.run fuel (.reset :: rest) m = some (.done m')) :
    CountsItems source (.reset :: rest) fuel m m' := by
  obtain ⟨sourcePath, targetPath, first, toSource, fromItem, toTarget, toPlace, hsource, htarget,
    hfirst, hs, -, -, -, rfl⟩ := exists_copyArray hstrategy hcopy
  obtain ⟨hcomponents, hwellFormed⟩ := ArrayPath.ofComponents?_eq_ok.1 hsource
  have hshape : .reset :: copyArray move.mapping first toSource fromItem toTarget toPlace =
      (.reset :: beforeCopying first toSource) ++
        countingLoop (copyItem move.mapping toSource fromItem toTarget toPlace) :=
    congrArg _ (copyArray_eq move.mapping first toSource fromItem toTarget toPlace)
  rw [hshape] at ho htotal ⊢
  obtain ⟨m₁, hfront, -⟩ := Machine.exists_of_run_append ho
  -- Where the loop starts, the machine is at the source array, of which it has the length.
  have hrealizes (fuel : Nat) (hfuel : Program.nesting (beforeCopying first toSource) ≤ fuel) :
      Realizes m.limits fuel (beforeCopying first toSource)
        ⟨.atRoot m.document, [], [], [], m.operations + 1⟩
        (Direct.itemsFound m.limits.arrayPadding targetPath.offset? sourcePath.hops m.document)
        fun found s => s.place = found.2.1 := by
    have hpos := Nat.le_trans (le_nesting _) hfuel
    obtain ⟨less, rfl⟩ : ∃ less, fuel = less + 1 := ⟨fuel - 1, by omega⟩
    refine (realizes_beforeCopying hfirst hs (.atRoot m.document) _).mono ?_
    rintro found _ - rfl
    rfl
  obtain ⟨found, s, hfound, hm, hplace⟩ := exists_shown hrealizes hfront
  obtain ⟨htrail, hlength⟩ := shown_of_itemsFound hfound
  simp only [Move.effort, hpaths, hstrategy, hsource, htarget, Direct.effortOfItems, hfound, map_ok,
    Except.ok.injEq] at heffort
  subst heffort
  have hstraight : Program.IsStraight (.reset :: beforeCopying first toSource) :=
    .cons rfl ((isStraight_findItems hfirst hs).append (.cons rfl .nil))
  have hbody : Program.loopBody (countingLoop
      (copyItem move.mapping toSource fromItem toTarget toPlace)) =
        copyItem move.mapping toSource fromItem toTarget toPlace := rfl
  rw [instructions_of_front hstraight _ hbody] at htotal
  refine ⟨sourcePath, _, _, m₁, found.2.1.node, found.2.2, hcomponents, hwellFormed, rfl, hfront,
    ?_, hlength, hrounds, ?_⟩
  · rw [hm.document, hplace, ← htrail, found.2.1.resolves]
  · rw [htotal]
    dsimp only
    omega

/-! ### From one node to items -/

theorem countsEach_of_run {source target : List Component}
    (hpaths : move.paths = .ok (source, target))
    (hstrategy : Strategy.select source target = .replication)
    (hcopy : move.copy source target = .ok rest) {effort : Effort}
    (heffort : move.effort m.limits.arrayPadding m.document = .ok effort)
    (hdirect : move.direct m.limits.arrayPadding m.document = .ok m'.document)
    (hrounds : effort.rounds ≤ m.limits.loopIterations)
    (htotal : m'.operations = m.operations + effort.instructions (.reset :: rest))
    (ho : Machine.run fuel (.reset :: rest) m = some (.done m')) :
    CountsEach target (.reset :: rest) fuel m m' := by
  obtain ⟨around, toSource, toArray, toPlace, haround, hs, ha, -, rfl⟩ :=
    exists_fillArray hstrategy hcopy
  obtain ⟨hcomponents, hwellFormed⟩ := ArrayPath.ofComponents?_eq_ok.1 haround
  have hshape : .reset :: fillArray move.mapping toSource toArray toPlace =
      (.reset :: findArray move.mapping toSource toArray) ++ (ensureItem ++
        ([.storeSize, .storeGiven (Json.ofInt 0)] ++ countingLoop (copyToItem toPlace))) := rfl
  rw [hshape] at ho htotal ⊢
  obtain ⟨m₁, hfront, -⟩ := Machine.exists_of_run_append ho
  have hrealizes (fuel : Nat)
      (hfuel : Program.nesting (findArray move.mapping toSource toArray) ≤ fuel) :
      Realizes m.limits fuel (findArray move.mapping toSource toArray)
        ⟨.atRoot m.document, [], [], [], m.operations + 1⟩
        (Direct.arrayFound m.limits.arrayPadding (hops .object source) around.hops m.document)
        fun found s => s.place = found.2.1 := by
    have hpos := Nat.le_trans (le_nesting _) hfuel
    obtain ⟨less, rfl⟩ : ∃ less, fuel = less + 1 := ⟨fuel - 1, by omega⟩
    refine (realizes_findArray hs ha (.atRoot m.document) _).mono ?_
    rintro found _ - rfl
    rfl
  obtain ⟨⟨value, place, count⟩, s, hfound, hm, hplace⟩ := exists_shown hrealizes hfront
  have hcount := Direct.size_of_arrayFound hfound
  have htrail : place.trail = trailOf around.hops := trail_of_arrayFound hfound
  simp only [Move.effort, hpaths, hstrategy, haround, Direct.effortToEach, hfound, map_ok,
    Except.ok.injEq] at heffort
  subst heffort
  -- The direct copy fills the array that the front of the program has found.
  simp only [direct, hpaths, hstrategy, haround, Direct.copyToEach_eq, hfound, ok_bind] at hdirect
  obtain ⟨filled, hfold, hdocument⟩ := bind_eq_ok.1 hdirect
  obtain ⟨items, rfl, hlength⟩ := Direct.exists_items_of_fill hcount hfold
  have hstraight : Program.IsStraight (.reset :: findArray move.mapping toSource toArray) :=
    .cons rfl (isStraight_findArray hs ha)
  have hbody : Program.loopBody (ensureItem ++ ([.storeSize, .storeGiven (Json.ofInt 0)] ++
      countingLoop (copyToItem toPlace))) = copyToItem toPlace := rfl
  rw [instructions_of_front hstraight _ hbody] at htotal
  refine ⟨around, _, _, m₁, place.node, count, items, hcomponents, hwellFormed, rfl, hfront, ?_,
    size_eq_ok.1 hcount, ?_, hlength ▸ hrounds, ?_⟩
  · rw [hm.document, hplace, ← htrail, place.resolves]
  · rw [← Except.ok.inj hdocument, ← htrail]
    exact (place.put (.array items)).resolves
  · rw [htotal, hlength]
    dsimp only
    omega

/-! ### Calls -/

/-- **A program that succeeds has counted exactly what it is made of.** Take any move that has a
program, any machine with ceilings and containers below 2⁵², and a call that succeeds. A move from
one node to one place has counted its instructions. A move from items to items has counted the body
of its loop, too, as often as the node at the source array has children when the loop starts. A move
from one node to items has counted it as often as the target array has items in the end, and one
instruction more if the node there had no children. The rounds and the count have not exceeded
their ceilings, so a run that would exceed them does not succeed. -/
theorem program_count (hp : move.program = .ok program)
    (hpadding : m.limits.arrayPadding < 2 ^ 52) (hrounds : m.limits.loopIterations < 2 ^ 52)
    (hsize : m.document.SizedBelow (2 ^ 52)) (ho : m.execute fuel program = some (.done m')) :
    m'.operations ≤ m.limits.operations ∧
      ∃ source target, move.paths = .ok (source, target) ∧
        match Strategy.select source target with
        | .simpleMove => m'.operations = m.operations + program.length
        | .patternMove => CountsItems source program fuel
            (m.record (.executing program.length m.trace)) m'
        | .replication => CountsEach target program fuel
            (m.record (.executing program.length m.trace)) m' := by
  obtain ⟨effort, heffort, hdirect, hle, htotal⟩ :=
    exists_spent (m := m.record (.executing program.length m.trace)) hp hpadding hrounds hsize ho
  obtain ⟨⟨source, target⟩, hpaths, hp⟩ := bind_eq_ok.1 hp
  obtain ⟨rest, hcopy, hp⟩ := bind_eq_ok.1 hp
  cases hp
  replace hpaths := mapError_eq_ok.1 hpaths
  constructor
  · -- The program counts at least its reset, so it is the ceiling that bounds the count.
    have hcount : m'.operations ≤ max m.operations m.limits.operations :=
      (Outcome.charges_law.run _ _ _ _ ho).count
    rw [instructions_reset] at htotal
    replace htotal : m'.operations = m.operations + (effort.instructions rest + 1) := htotal
    omega
  · refine ⟨source, target, hpaths, ?_⟩
    split
    next hstrategy =>
      simp only [Move.effort, hpaths, hstrategy, Except.ok.injEq] at heffort
      subst heffort
      rw [Effort.instructions, Nat.zero_mul] at htotal
      exact htotal
    next hstrategy => exact countsItems_of_run hpaths hstrategy hcopy heffort hle htotal ho
    next hstrategy => exact countsEach_of_run hpaths hstrategy hcopy heffort hdirect hle htotal ho

/-- Two items are copied behind themselves, so the array on which the loop runs becomes longer. A
node is copied to each item of an array that is not there, and one item is put there first. -/
theorem program_count_of_growing_arrays :
    (∃ program m', Move.program ⟨"$.a[*].x", "$.a[*+$.a].x", none⟩ = .ok program ∧
      (Machine.start (.object [("a", .array [.object [("x", .text "u")],
        .object [("x", .text "v")]])]) {} false).execute 2 program = some (.done m') ∧
      CountsItems [.arrayAll "a", .field "x"] program 2
        ((Machine.start (.object [("a", .array [.object [("x", .text "u")],
          .object [("x", .text "v")]])]) {} false).record (.executing program.length false)) m') ∧
    ∃ program m', Move.program ⟨"$.v", "$.b[*].y", none⟩ = .ok program ∧
      (Machine.start (.object [("v", .null)]) {} false).execute 2 program = some (.done m') ∧
      CountsEach [.arrayAll "b", .field "y"] program 2
        ((Machine.start (.object [("v", .null)]) {} false).record
          (.executing program.length false)) m' := by
  constructor
  · obtain ⟨program, m', hp, ho⟩ := exists_done_of_isDone (m := Machine.start (.object
        [("a", .array [.object [("x", .text "u")], .object [("x", .text "v")]])]) {} false)
      (show (Move.program ⟨"$.a[*].x", "$.a[*+$.a].x", none⟩).toOption.bind (fun program =>
        (Machine.execute 2 program _).map Outcome.isDone) = some true by decide +kernel)
    have hsize : (Machine.start (.object [("a", .array [.object [("x", .text "u")],
        .object [("x", .text "v")]])]) {} false).document.SizedBelow (2 ^ 52) :=
      Json.sizedBelow_of_widest_lt _ (by decide)
    obtain ⟨-, source, target, hpaths, hcounts⟩ :=
      program_count hp (by decide) (by decide) hsize ho
    have hparse : Move.paths ⟨"$.a[*].x", "$.a[*+$.a].x", none⟩ =
        .ok ([.arrayAll "a", .field "x"], [.arrayAllOffset "a" "$.a", .field "x"]) := by
      decide +kernel
    cases hpaths.symm.trans hparse
    exact ⟨program, m', hp, ho, hcounts⟩
  · obtain ⟨program, m', hp, ho⟩ := exists_done_of_isDone
      (m := Machine.start (.object [("v", .null)]) {} false)
      (show (Move.program ⟨"$.v", "$.b[*].y", none⟩).toOption.bind (fun program =>
        (Machine.execute 2 program _).map Outcome.isDone) = some true by decide +kernel)
    have hsize : (Machine.start (.object [("v", .null)]) {} false).document.SizedBelow (2 ^ 52) :=
      Json.sizedBelow_of_widest_lt _ (by decide)
    obtain ⟨-, source, target, hpaths, hcounts⟩ :=
      program_count hp (by decide) (by decide) hsize ho
    have hparse : Move.paths ⟨"$.v", "$.b[*].y", none⟩ =
        .ok ([.field "v"], [.arrayAll "b", .field "y"]) := by decide +kernel
    cases hpaths.symm.trans hparse
    exact ⟨program, m', hp, ho, hcounts⟩

end Move

end Reshape
