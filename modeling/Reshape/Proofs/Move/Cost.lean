import Reshape.Proofs.Move.Correct

/-!
# What a move takes

The program of a move comes to the document of the direct copy, if what it takes is within its
ceilings: so many rounds, and so many instructions.

* `completes_copyNode`, `completes_fillArray` and `completes_copyArray`, for the three strategies;
* `spent_of_apply`, what a move has taken that has been applied, and `apply_of_direct`, a move that
  is applied because it takes no more than it may.
-/

namespace Reshape.Move

variable {limits : Limits} {fuel : Nat} {p : Place} {elements values : List Json}
  {commands : List Program} {operations : Nat} {mapping : Option Mapping} {document : Json}
  {effort : Effort}

/-! ### One node to one place -/

theorem isStraight_copyNode {toSource toTarget : Route} {source target : List Hop}
    (hs : toSource.Follows source) (ht : toTarget.Follows target) :
    (copyNode mapping toSource toTarget).IsStraight :=
  ((((isStraight_fromRoot hs).append (isStraight_pickUp mapping)).append
    (.cons rfl .nil)).append (isStraight_fromRoot ht)).append (.cons rfl (.cons rfl .nil))

theorem completes_copyNode {toSource toTarget : Route} {source target : List Hop}
    (hs : toSource.Follows source) (ht : toTarget.Follows target)
    (hdirect : Direct.copyOne limits.arrayPadding mapping source target p.document = .ok document)
    (hcost : operations + (copyNode mapping toSource toTarget).length ≤ limits.operations) :
    Completes limits (fuel + 1) (copyNode mapping toSource toTarget)
      ⟨p, elements, values, commands, operations⟩ fun s => s.place.document = document :=
  ((realizes_copyOne hs ht p operations).completes hdirect (isStraight_copyNode hs ht) hcost).mono
    fun _ hshown => hshown.document

/-! ### One node to each item of an array -/

theorem isStraight_copyToItem {toPlace : Route} {after : List Hop} (hp : toPlace.Follows after) :
    (copyToItem toPlace).IsStraight := by
  have hmoveOuts : Program.IsStraight (List.replicate (toPlace.depth + 1) .moveOut) := by
    intro i hi
    rw [List.eq_of_mem_replicate hi]
    rfl
  exact (((Program.IsStraight.cons rfl (hp.steers []).isStraight).append
    (.cons rfl (.cons rfl .nil))).append hmoveOuts).append (.cons rfl .nil)

theorem completes_ensureItem {count : Nat} (hc : count ≤ 2 ^ 53)
    (hcost : operations + (if count = 0 then 4 else 3) ≤ limits.operations) :
    Completes limits (fuel + 2) ensureItem
      ⟨p, elements, Json.ofNat count :: values, commands, operations⟩ fun s =>
        s = ⟨p.put (if count = 0 then singleItem else p.node), elements, values, commands,
          operations + if count = 0 then 4 else 3⟩ := by
  have hthree : operations + 3 ≤ limits.operations := by
    split at hcost <;> omega
  refine .next (acts_storeValue fun _ _ => rfl) (by dsimp only; omega)
    (.next (acts_compare hc (by decide)) (by dsimp only; omega) ?_)
  by_cases hzero : count = 0
  · have htest : decide (1 ≤ count) = false := by simp [hzero]
    rw [if_pos hzero] at hcost ⊢
    rw [if_pos hzero, htest]
    refine (completes_jumpIfFalse_false (P := fun s =>
      s = ⟨p.put singleItem, elements, values, commands, operations + 3⟩)
      (.next (acts_storeElement singleItem) (by dsimp only; omega)
        (.nil ⟨rfl, ?_⟩))).mono ?_
    · simp only [Scene.tick]
      omega
    · rintro _ ⟨_, rfl, rfl⟩
      rfl
  · have htest : decide (1 ≤ count) = true := decide_eq_true (Nat.pos_of_ne_zero hzero)
    rw [if_neg hzero, if_neg hzero, htest, Place.put_node]
    exact completes_jumpIfFalse_true _ (by dsimp only; omega)

/-- A round and the ones before it take no more than all rounds. -/
theorem rounds_le {index count cost : Nat} (hi : index < count) :
    index * cost + cost ≤ count * cost := by
  rw [← Nat.succ_mul]
  exact Nat.mul_le_mul_right cost hi

theorem completes_fill {toPlace : Route} {after : List Hop} (hp : toPlace.Follows after)
    {value array filled : Json} {count : Nat} {base : Place} (hc : count ≤ 2 ^ 53)
    (hrounds : count ≤ limits.loopIterations)
    (hfold : (List.range count).foldlM (fun array index =>
      Direct.writeAt limits.arrayPadding (.item (some index) :: after) value array) array =
        .ok filled)
    (hcost : operations + 2 + count * (copyToItem toPlace).length ≤ limits.operations) :
    Completes limits (fuel + 2) (countingLoop (copyToItem toPlace))
      ⟨base.put array, [value], Json.ofNat 0 :: Json.ofNat count :: values, commands, operations⟩
      fun s => s.place = base.put filled := by
  refine (completes_countingLoop (R := fun i array place total => place = base.put array ∧
    total = operations + 1 + i * (copyToItem toPlace).length) hc hrounds hfold ?_
    ⟨rfl, by rw [Nat.zero_mul, Nat.add_zero]⟩ (by omega) ?_).mono ?_
  · rintro i array array' _ hi hstep ⟨_, _, ⟨rfl, rfl⟩, rfl⟩
    have hle : i * (copyToItem toPlace).length + (copyToItem toPlace).length ≤
      count * (copyToItem toPlace).length := rounds_le hi
    refine ((realizes_copyToItem hp (by omega) base array _).completes hstep
      (isStraight_copyToItem hp) (by dsimp only; omega)).mono ?_
    rintro _ rfl
    exact ⟨_, _, ⟨rfl, by rw [Nat.succ_mul]; omega⟩, rfl⟩
  · rintro _ _ ⟨rfl, rfl⟩
    omega
  · rintro _ ⟨_, _, ⟨rfl, rfl⟩, rfl⟩
    rfl

theorem completes_fillArray {toSource toArray toPlace : Route} {source array after : List Hop}
    (hs : toSource.Follows source) (ha : toArray.Follows array) (hp : toPlace.Follows after)
    (hceiling : limits.loopIterations < 2 ^ 52)
    (hdirect : Direct.copyToEach limits.arrayPadding mapping source array after p.document =
      .ok document)
    (heffort : Direct.effortToEach limits.arrayPadding source array p.document = .ok effort)
    (hrounds : effort.rounds ≤ limits.loopIterations)
    (hcost : operations + effort.instructions (fillArray mapping toSource toArray toPlace) ≤
      limits.operations) :
    Completes limits (fuel + 2) (fillArray mapping toSource toArray toPlace)
      ⟨p, [], values, commands, operations⟩ fun s => s.place.document = document := by
  rw [Direct.copyToEach_eq] at hdirect
  obtain ⟨⟨value, base, count⟩, hfound, hdirect⟩ := bind_eq_ok.1 hdirect
  obtain ⟨filled, hfold, hdirect⟩ := bind_eq_ok.1 hdirect
  cases hdirect
  rw [Direct.effortToEach, hfound] at heffort
  cases heffort
  rw [instructions_fillArray hs ha] at hcost
  dsimp only at hrounds hcost
  have hjump : operations + (findArray mapping toSource toArray).length +
      (if count = 0 then 4 else 3) + 4 + max 1 count * (copyToItem toPlace).length ≤
        limits.operations := by
    split at hcost <;> rename_i hzero
    · rw [if_pos hzero]
      omega
    · rw [if_neg hzero]
      omega
  refine ((realizes_findArray hs ha p operations).completes hfound (isStraight_findArray hs ha)
    (by dsimp only; omega)).append ?_
  rintro _ rfl
  have hcount : count ≤ 2 ^ 53 := by omega
  refine (completes_ensureItem hcount (by omega)).append ?_
  rintro _ rfl
  refine .next (acts_storeSize_of_size (size_ensured (Direct.size_of_arrayFound hfound)))
    (by dsimp only; omega) (.next (acts_storeValue fun _ _ => rfl) (by dsimp only; omega) ?_)
  exact (completes_fill hp (by omega) hrounds hfold (by omega)).mono
    fun _ hplace => congrArg Place.document hplace

/-! ### Items to items -/

theorem isStraight_copyItem {toSource fromItem toTarget toPlace : Route}
    {source after target behind : List Hop} (hs : toSource.Follows source)
    (hf : fromItem.Follows after) (ht : toTarget.Follows target) (hp : toPlace.Follows behind) :
    (copyItem mapping toSource fromItem toTarget toPlace).IsStraight := by
  have hadd : Program.IsStraight [.storeValue (.value 0), .storeValue (.value 3), .add,
      .moveIntoIndex (.value 0), .popValue] := by
    simp [Program.IsStraight, Instruction.isSingle]
  have hput : Program.IsStraight [.popElement, .moveOut, .moveOut, .increment] := by
    simp [Program.IsStraight, Instruction.isSingle]
  exact ((((((isStraight_fromRoot hs).append (.cons rfl (hf.steers []).isStraight)).append
    (isStraight_pickUp mapping)).append (isStraight_fromRoot ht)).append hadd).append
    (hp.steers []).isStraight).append hput

/-- Without an offset, nothing is passed over. -/
theorem first_of_itemsFound {limit : Nat} {source : List Hop} {found : Nat × Place × Nat}
    (h : Direct.itemsFound limit none source document = .ok found) : found.1 = 0 := by
  obtain ⟨_, hnone, h⟩ := bind_eq_ok.1 h
  obtain ⟨place, -, h⟩ := bind_eq_ok.1 h
  obtain ⟨count, -, h⟩ := bind_eq_ok.1 h
  cases hnone
  cases h
  rfl

theorem completes_copyArray {first : Program} {targetPath : ArrayPath}
    {toSource fromItem toTarget toPlace : Route} {source after target behind : List Hop}
    (hfirst : firstPosition targetPath.array = .ok first) (hs : toSource.Follows source)
    (hf : fromItem.Follows after) (ht : toTarget.Follows target) (hp : toPlace.Follows behind)
    (hoffset : targetPath.offset? = none) (hceiling : limits.loopIterations < 2 ^ 52)
    (hdirect : Direct.copyItems limits.arrayPadding mapping targetPath.offset? source after target
      behind p.document = .ok document)
    (heffort : Direct.effortOfItems limits.arrayPadding targetPath.offset? source p.document =
      .ok effort)
    (hrounds : effort.rounds ≤ limits.loopIterations)
    (hcost : operations +
      effort.instructions (copyArray mapping first toSource fromItem toTarget toPlace) ≤
        limits.operations) :
    Completes limits (fuel + 2) (copyArray mapping first toSource fromItem toTarget toPlace)
      ⟨p, elements, [], commands, operations⟩ fun s => s.place.document = document := by
  rw [Direct.copyItems_eq] at hdirect
  obtain ⟨⟨offset, place, count⟩, hfound, hfold⟩ := bind_eq_ok.1 hdirect
  rw [Direct.effortOfItems, hfound] at heffort
  cases heffort
  rw [instructions_copyArray hfirst hs] at hcost
  dsimp only at hfold hrounds hcost
  obtain rfl : offset = 0 := by
    rw [hoffset] at hfound
    exact first_of_itemsFound hfound
  refine ((realizes_findItems hfirst hs p operations).completes hfound
    (isStraight_findItems hfirst hs) (by dsimp only; omega)).append ?_
  rintro _ rfl
  refine .next (acts_storeValue fun _ _ => rfl) (by dsimp only; omega) ?_
  have hcount : count ≤ 2 ^ 53 := by omega
  refine (completes_countingLoop (R := fun i document place total =>
    place.document = document ∧ total = operations + (findItems first toSource).length + 2 +
      i * (copyItem mapping toSource fromItem toTarget toPlace).length) hcount hrounds hfold ?_
    ⟨rfl, by rw [Nat.zero_mul]⟩ (by dsimp only; omega) ?_).mono ?_
  · rintro i _ document' _ hi hstep ⟨place, _, ⟨rfl, rfl⟩, rfl⟩
    have hle : i * (copyItem mapping toSource fromItem toTarget toPlace).length +
        (copyItem mapping toSource fromItem toTarget toPlace).length ≤
      count * (copyItem mapping toSource fromItem toTarget toPlace).length := rounds_le hi
    refine ((realizes_copyItem hs hf ht hp (by omega) place _).completes hstep
      (isStraight_copyItem hs hf ht hp) (by dsimp only; omega)).mono ?_
    rintro s hshown
    obtain ⟨place, rfl, rfl⟩ := hshown.exists_place
    exact ⟨_, _, ⟨rfl, by rw [Nat.succ_mul]; omega⟩, rfl⟩
  · rintro _ _ ⟨-, rfl⟩
    omega
  · rintro _ ⟨_, _, ⟨hdocument, -⟩, rfl⟩
    exact hdocument

/-! ### Whole programs -/

/-- The program of a move behind its reset, on a scene with empty stacks. -/
theorem completes_copy {move : Move} {program : Program} (h : Compiled move program)
    {source target : List Component} (hpaths : move.paths = .ok (source, target))
    (hoffset : ∀ component ∈ target, ¬ component.IsOffset)
    (hceiling : limits.loopIterations < 2 ^ 52) (hfuel : Program.nesting program ≤ fuel)
    (hdirect : move.direct limits.arrayPadding p.document = .ok document)
    (heffort : move.effort limits.arrayPadding p.document = .ok effort)
    (hrounds : effort.rounds ≤ limits.loopIterations)
    (hcost : operations + effort.instructions program ≤ limits.operations) :
    Completes limits fuel program ⟨p, [], [], [], operations⟩ fun s =>
      s.place.document = document := by
  cases h with
  | simpleMove hs ht hd he =>
    have hnesting := Nat.le_trans (le_nesting _) hfuel
    obtain ⟨fuel, rfl⟩ : ∃ less, fuel = less + 1 := ⟨fuel - 1, by omega⟩
    rw [hd] at hdirect
    rw [Effort.instructions] at hcost
    exact completes_copyNode hs ht hdirect (by omega)
  | replication hs ha hp hd he =>
    have hnesting := Nat.le_trans (two_le_nesting (pushCommand_mem_fillArray _ _ _ _)) hfuel
    obtain ⟨fuel, rfl⟩ : ∃ less, fuel = less + 2 := ⟨fuel - 2, by omega⟩
    rw [hd] at hdirect
    rw [he] at heffort
    exact completes_fillArray hs ha hp hceiling hdirect heffort hrounds hcost
  | @patternMove first sourcePath targetPath _ _ _ _ _ _ _ _ hcompiled hfirst hs hf ht hp hd he =>
    have hnesting := Nat.le_trans (two_le_nesting (pushCommand_mem_copyArray _ _ _ _ _ _)) hfuel
    obtain ⟨fuel, rfl⟩ : ∃ less, fuel = less + 2 := ⟨fuel - 2, by omega⟩
    rw [hd] at hdirect
    rw [he] at heffort
    have hnone : targetPath.offset? = none := by
      cases hpaths.symm.trans hcompiled
      exact ArrayPath.offset?_eq_none (hoffset _ (by simp [ArrayPath.components]))
    exact completes_copyArray hfirst hs hf ht hp hnone hceiling hdirect heffort hrounds hcost

/-- A reset that may be completed leaves the root of the document. -/
theorem exists_step_reset (run : Runner) {m : Machine}
    (hcost : m.operations < m.limits.operations) :
    ∃ m', Machine.step run .reset m = some (.done m') ∧
      m'.At m.limits ⟨.atRoot m.document, [], [], [], m.operations + 1⟩ := by
  have hreset : Machine.carryOut run .reset (m.announce .reset) =
      some (.ofEffect Instruction.reset.perform (m.announce .reset)) := rfl
  obtain ⟨o, ho, hagrees⟩ := step_agrees hreset (.ofEffect m.at_reset)
  obtain ⟨o', ho', hcosts⟩ := Machine.step_costs (i := .reset) rfl run m
  cases ho.symm.trans ho'
  rcases hagrees with ⟨hr, hm, _, rfl, rfl⟩ | ⟨m', hc⟩ | ⟨m', hr, he⟩
  · cases hr
    exact ⟨_, ho, hm⟩
  · have hover := hcosts hc
    omega
  · cases hr

/-- The program of a move comes to the document of the direct copy on any machine that may complete
as many instructions as it takes. -/
theorem program_completes {move : Move} {program : Program} (hp : move.program = .ok program)
    {source target : List Component} (hpaths : move.paths = .ok (source, target))
    (hoffset : ∀ component ∈ target, ¬ component.IsOffset) {m : Machine}
    (hceiling : m.limits.loopIterations < 2 ^ 52) (hfuel : Program.nesting program ≤ fuel)
    (hdirect : move.direct m.limits.arrayPadding m.document = .ok document)
    (heffort : move.effort m.limits.arrayPadding m.document = .ok effort)
    (hrounds : effort.rounds ≤ m.limits.loopIterations)
    (hcost : m.operations + effort.instructions program ≤ m.limits.operations) :
    ∃ m', Machine.run fuel program m = some (.done m') ∧ m'.document = document := by
  obtain ⟨paths, hparse, hp⟩ := bind_eq_ok.1 hp
  cases (mapError_eq_ok.1 hparse).symm.trans hpaths
  obtain ⟨rest, hcopy, hp⟩ := bind_eq_ok.1 hp
  cases hp
  rw [instructions_reset] at hcost
  rw [Program.nesting] at hfuel
  obtain ⟨fuel, rfl⟩ : ∃ less, fuel = less + 1 := ⟨fuel - 1, by omega⟩
  obtain ⟨m₁, hstep, hm₁⟩ := exists_step_reset (Machine.run fuel) (m := m) (by omega)
  have hnesting : Program.nesting rest ≤ fuel + 1 := by omega
  obtain ⟨m₂, s, hrun, hm₂, rfl⟩ := completes_copy (p := .atRoot m.document)
    (compiled_of_copy hpaths hcopy) hpaths hoffset hceiling hnesting hdirect heffort hrounds
    (by omega) m₁ hm₁
  refine ⟨m₂, ?_, hm₂.document⟩
  rw [Machine.run, inSequence, hstep]
  exact hrun

/-- **A move that takes no more than it may is applied**: the document is that of the direct
copy. -/
theorem apply_of_direct {move : Move} {program : Program} (hp : move.program = .ok program)
    {source target : List Component} (hpaths : move.paths = .ok (source, target))
    (hoffset : ∀ component ∈ target, ¬ component.IsOffset) {document' : Json}
    (hdirect : move.direct ({} : Limits).arrayPadding document = .ok document')
    (heffort : move.effort ({} : Limits).arrayPadding document = .ok effort)
    (hrounds : effort.rounds ≤ ({} : Limits).loopIterations)
    (hcost : effort.instructions program ≤ ({} : Limits).operations) :
    move.apply document = .ok document' := by
  have hceiling : ({} : Limits).loopIterations < 2 ^ 52 := by decide
  have hafford : 0 + effort.instructions program ≤ ({} : Limits).operations :=
    (Nat.zero_add _).symm ▸ hcost
  obtain ⟨m, hrun, rfl⟩ := program_completes hp hpaths hoffset
    (m := (Machine.start document {} false).record (.executing program.length false))
    hceiling (Nat.le_refl _) hdirect heffort hrounds hafford
  replace hrun : (Machine.start document {} false).execute (Program.nesting program) program =
    some (.done m) := hrun
  simp only [apply, hp, hrun]

/-- A move that has been applied has taken no more than it may. -/
theorem spent_of_apply {move : Move} {document' : Json} (hsize : document.SizedBelow (2 ^ 52))
    (h : move.apply document = .ok document') :
    ∃ program effort, move.program = .ok program ∧
      move.effort ({} : Limits).arrayPadding document = .ok effort ∧
      effort.rounds ≤ ({} : Limits).loopIterations ∧
      effort.instructions program ≤ ({} : Limits).operations := by
  obtain ⟨program, hp⟩ := exists_program_of_apply h
  have hpadding : ({} : Limits).arrayPadding < 2 ^ 52 := by decide
  have hrounds : ({} : Limits).loopIterations < 2 ^ 52 := by decide
  obtain ⟨o, ho, hagrees⟩ := program_spends hp
    (m := (Machine.start document {} false).record (.executing program.length false))
    hpadding hrounds hsize (Nat.le_refl _)
  have hcharges := Outcome.charges_law.run _ _ _ _ ho
  replace ho : (Machine.start document {} false).execute (Program.nesting program) program =
    some o := ho
  simp only [apply, hp, ho] at h
  rcases hagrees with @⟨result, s, m, hr, hm, -, effort, heffort, hle, htotal⟩ | ⟨m, hc⟩ |
    ⟨m, hr, he⟩
  · -- The count of the machine was never above its ceiling.
    have hcount : m.operations ≤ ({} : Limits).operations := hcharges.count
    rw [hm.operations, htotal] at hcount
    exact ⟨program, effort, hp, heffort, hle, Nat.le_trans (Nat.le_add_left _ _) hcount⟩
  · cases h
  · cases h

end Reshape.Move
