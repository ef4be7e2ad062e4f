import Reshape.Proofs.Machine.Typing
import Reshape.Proofs.Move.Simulation

/-!
# The programs of moves are typed

Every part of the program of a move has a type, whatever the paths are, so the program never misuses
a stack. It starts with a reset, so it does not matter what a machine was left with.

* `Route.Follows.typed`: a route has a type on every shape;
* `typed_copyOne`, `typed_copyToEach` and `typed_behind_firstPosition`, for the three strategies;
* `run_firstPosition`: the length that an offset passes over is a finite number;
* `execute_never_misuses`, for the program of a move on any machine.
-/

namespace Reshape

/-- A route reads no values, so it has a type on every shape. -/
theorem Route.Follows.typed {route : Route} {walk : List Hop} (h : route.Follows walk)
    (shape : Shape) : Program.Typed route.moves shape shape := by
  obtain ⟨hsteers, -⟩ := h
  specialize hsteers []
  generalize route.moves = program at hsteers
  induction hsteers with
  | stay => exact .nil
  | field mode name _ ih => exact .cons (.moveIntoField mode name) ih
  | given word _ ih => exact .cons (.intoGiven word) ih
  | counter hv => cases hv

namespace Move

variable {mapping : Option Mapping} {toSource toTarget toArray toPlace fromItem : Route}
  {source target array after behind : List Hop} {count : Nat} {cells : List Cell} {shape : Shape}

/-! ### Parts of programs -/

theorem typed_fromRoot {route : Route} {walk : List Hop} (h : route.Follows walk)
    (shape : Shape) : Program.Typed (fromRoot route) shape shape :=
  .cons .moveToRoot (h.typed shape)

theorem typed_pickUp (mapping : Option Mapping) :
    Program.Typed (pickUp mapping) ⟨count, cells⟩ ⟨count + 1, cells⟩ := by
  cases mapping with
  | none => exact .cons .pushElement .nil
  | some table => exact .cons .pushElement (.cons (.mapElement table) .nil)

theorem typed_moveOuts (outs : Nat) (shape : Shape) :
    Program.Typed (List.replicate outs .moveOut) shape shape := by
  induction outs with
  | zero => exact .nil
  | succ outs ih => exact .cons .moveOut ih

theorem typed_countingLoop {body : Program}
    (h : Program.Typed body ⟨count, .word :: .number :: cells⟩
      ⟨count, .word :: .number :: cells⟩) :
    Program.Typed (countingLoop body) ⟨count, .word :: .number :: cells⟩
      ⟨count, .word :: .number :: cells⟩ :=
  .loop h .nil

/-! ### The three strategies -/

/-- The element that is picked up is put down again. -/
theorem typed_copyOne {source target : List Component} {program : Program}
    (hp : copyOne mapping source target = .ok program) :
    Program.Typed program ⟨count, cells⟩ ⟨count, cells⟩ := by
  obtain ⟨toSource, hsource, hp⟩ := bind_eq_ok.1 hp
  obtain ⟨toTarget, htarget, hp⟩ := bind_eq_ok.1 hp
  cases hp
  simp only [List.append_assoc]
  refine (typed_fromRoot (route_follows hsource) _).append ((typed_pickUp mapping).append ?_)
  refine .cons .moveOut ((typed_fromRoot (route_follows htarget) _).append ?_)
  exact .cons .popElement (.cons .moveOut .nil)

/-- A round of the loop puts down a copy of the element, and counts. -/
theorem typed_copyToItem (hp : toPlace.Follows after) :
    Program.Typed (copyToItem toPlace) ⟨count + 1, .word :: cells⟩ ⟨count + 1, .word :: cells⟩ := by
  unfold copyToItem
  simp only [List.append_assoc]
  refine .cons .intoCounter ((hp.typed _).append ?_)
  refine .cons .duplicateElement (.cons .popElement ((typed_moveOuts _ _).append ?_))
  exact .cons (.increment Cell.isFinite_word) .nil

theorem typed_findArray (hs : toSource.Follows source) (ha : toArray.Follows array) :
    Program.Typed (findArray mapping toSource toArray) ⟨count, cells⟩
      ⟨count + 1, .number :: cells⟩ :=
  (((typed_fromRoot hs _).append (typed_pickUp mapping)).append (typed_fromRoot ha _)).append
    (.cons .storeSize .nil)

theorem typed_ensureItem :
    Program.Typed ensureItem ⟨count, .number :: cells⟩ ⟨count, cells⟩ := by
  have hone : Cell.number.Admits (Json.ofInt 1) := ⟨_, rfl⟩
  refine .cons (.storeGiven hone) (.cons (.compare Cell.isNumber_number Cell.isNumber_number) ?_)
  exact .jump (.storeElement singleItem) .nil

theorem typed_beforeFilling (hs : toSource.Follows source) (ha : toArray.Follows array) :
    Program.Typed (beforeFilling mapping toSource toArray) ⟨count, cells⟩
      ⟨count + 1, .word :: .number :: cells⟩ :=
  have hzero : Cell.word.Admits (Json.ofInt 0) := ⟨0, rfl⟩
  (typed_findArray hs ha).append (typed_ensureItem.append
    (.cons .storeSize (.cons (.storeGiven hzero) .nil)))

/-- The element stays on its stack, and the counter and its bound on theirs. -/
theorem typed_copyToEach {source target : List Component} {text : String} {program : Program}
    (hp : copyToEach mapping source target text = .ok program) :
    Program.Typed program ⟨count, cells⟩ ⟨count + 1, .word :: .number :: cells⟩ := by
  obtain ⟨around, haround, hp⟩ := bind_eq_ok.1 hp
  obtain ⟨toSource, hsource, hp⟩ := bind_eq_ok.1 hp
  obtain ⟨toParent, hparent, hp⟩ := bind_eq_ok.1 hp
  obtain ⟨toPlace, hplace, hp⟩ := bind_eq_ok.1 hp
  cases hp
  have hitems := (ArrayPath.ofComponents?_eq_ok.1 (mapError_eq_ok.1 haround)).2.array
  have harray := follows_hops hitems (route_follows hparent)
  have hfront : Program.Typed (beforeFilling mapping toSource _) ⟨count, cells⟩ _ :=
    typed_beforeFilling (route_follows hsource) harray
  have hfill := hfront.append (typed_countingLoop (typed_copyToItem (route_follows hplace)))
  simp only [beforeFilling, findArray, ensureItem, List.append_assoc] at hfill ⊢
  exact hfill

/-- A round of the loop adds the first position, three values deep, to the counter. -/
theorem typed_copyItem (hs : toSource.Follows source) (hf : fromItem.Follows after)
    (ht : toTarget.Follows target) (hp : toPlace.Follows behind) :
    Program.Typed (copyItem mapping toSource fromItem toTarget toPlace)
      ⟨count, [.word, .number, .finite]⟩ ⟨count, [.word, .number, .finite]⟩ := by
  unfold copyItem
  simp only [List.append_assoc]
  refine (typed_fromRoot hs _).append (.cons .intoCounter ((hf.typed _).append ?_))
  refine (typed_pickUp mapping).append ((typed_fromRoot ht _).append ?_)
  refine .cons (.storeValue rfl) (.cons (.storeValue rfl) ?_)
  refine .cons (.add Cell.isFinite_word Cell.isFinite_finite) ?_
  refine .cons .intoCounter (.cons .popValue ((hp.typed _).append ?_))
  refine .cons .popElement (.cons .moveOut (.cons .moveOut ?_))
  exact .cons (.increment Cell.isFinite_word) .nil

/-- The program that copies items to items has a type behind the part that counts what is passed
over. -/
theorem typed_behind_firstPosition {source target : List Component}
    {sourceText targetText : String} {program : Program}
    (hp : copyItems mapping source target sourceText targetText = .ok program) :
    ∃ (around : ArrayPath) (first rest : Program), firstPosition around.array = .ok first ∧
      program = first ++ rest ∧
      Program.Typed rest ⟨count, [.finite]⟩ ⟨count, [.word, .number, .finite]⟩ := by
  obtain ⟨sourcePath, hsourcePath, hp⟩ := bind_eq_ok.1 hp
  obtain ⟨targetPath, htargetPath, hp⟩ := bind_eq_ok.1 hp
  have hsourceItems := (ArrayPath.ofComponents?_eq_ok.1 (mapError_eq_ok.1 hsourcePath)).2.array
  have htargetItems := (ArrayPath.ofComponents?_eq_ok.1 (mapError_eq_ok.1 htargetPath)).2.array
  split at hp
  · cases hp
  · obtain ⟨first, hfirst, hp⟩ := bind_eq_ok.1 hp
    obtain ⟨toSourceParent, hsourceParent, hp⟩ := bind_eq_ok.1 hp
    obtain ⟨fromItem, hitem, hp⟩ := bind_eq_ok.1 hp
    obtain ⟨toTargetParent, htargetParent, hp⟩ := bind_eq_ok.1 hp
    obtain ⟨toPlace, hplace, hp⟩ := bind_eq_ok.1 hp
    cases hp
    have hsource := follows_hops hsourceItems (route_follows hsourceParent)
    have htarget := follows_hops htargetItems (route_follows htargetParent)
    have hzero : Cell.word.Admits (Json.ofInt 0) := ⟨0, rfl⟩
    simp only [List.append_assoc]
    refine ⟨targetPath, first, _, hfirst, rfl, ?_⟩
    refine (typed_fromRoot hsource _).append (.cons .storeSize (.cons (.storeGiven hzero) ?_))
    exact typed_countingLoop
      (typed_copyItem hsource (route_follows hitem) htarget (route_follows hplace))

/-! ### What is passed over -/

/-- The count of what is passed over has a type, but only as a number. -/
theorem typed_firstPosition {component : Component} {program : Program}
    (h : firstPosition component = .ok program) :
    Program.Typed program ⟨count, cells⟩ ⟨count, .number :: cells⟩ := by
  cases component with
  | arrayAllOffset name text =>
    obtain ⟨path, -, h⟩ := bind_eq_ok.1 h
    obtain ⟨route, hroute, h⟩ := bind_eq_ok.1 h
    cases h
    have hfollows := Route.follows_toOffset (mapError_eq_ok.1 hroute)
    exact (typed_fromRoot hfollows _).append (.cons .storeSize .nil)
  | _ =>
    have hzero : Cell.number.Admits (Json.ofInt 0) := ⟨_, rfl⟩
    cases h
    exact .cons (.storeGiven hzero) .nil

theorem typed_beforeCopying {component : Component} {first : Program}
    (h : firstPosition component = .ok first) (hs : toSource.Follows source) :
    Program.Typed (beforeCopying first toSource) ⟨count, cells⟩
      ⟨count, .word :: .number :: .number :: cells⟩ :=
  have hzero : Cell.word.Admits (Json.ofInt 0) := ⟨0, rfl⟩
  (((typed_firstPosition h).append (typed_fromRoot hs _)).append (.cons .storeSize .nil)).append
    (.cons (.storeGiven hzero) .nil)

variable {m : Machine} {commands : List Program} {level fuel : Nat}

/-- What is passed over is as long as some container, so its length is a finite number. The type of
the program does not tell that: a number may be infinite. -/
theorem run_firstPosition {around : ArrayPath} {program : Program}
    (h : firstPosition around.array = .ok program) (hm : m.Fits ⟨count, []⟩ commands level)
    (hsize : m.document.SizedBelow (2 ^ 63)) (hfuel : Program.nesting program ≤ fuel) :
    ∃ o, Machine.run fuel program m = some o ∧ o.Fits ⟨count, [.finite]⟩ commands level := by
  obtain ⟨o, ho, hfits⟩ := (typed_firstPosition h).leads hfuel m _ _ hm
  refine ⟨o, ho, ?_⟩
  cases o with
  | failed e m' => exact hfits
  | done m' =>
    obtain ⟨-, s, hs, -, hshape⟩ := hm
    obtain ⟨place, elements, values, commands, operations⟩ := s
    cases hshape.values
    have hnesting := le_nesting program
    obtain ⟨less, rfl⟩ : ∃ less, fuel = less + 1 := ⟨fuel - 1, by omega⟩
    obtain ⟨o', ho', hagrees⟩ := realizes_firstPosition h place operations m hs
    cases ho.symm.trans ho'
    obtain @⟨⟨first, document⟩, t, _, hcounted, ht, hshown⟩ := hagrees
    have hbound := (Direct.passOver_sizedBelow (hs.document ▸ hsize) (by decide) hcounted).1
    have hfinite : Cell.finite.Admits (Json.ofNat first) :=
      Json.exists_toWord?_ofNat (Nat.le_of_lt hbound)
    have hvalues : m'.values.items = [Json.ofNat first] := ht.values.trans hshown.values
    exact Machine.Fits.of_values hfits (hvalues ▸ .cons hfinite .nil)

/-! ### Whole programs -/

/-- The program of a move behind its reset, on a machine with empty stacks. -/
theorem run_copy {move : Move} {source target : List Component} {program : Program}
    (hp : move.copy source target = .ok program) (hm : m.Fits ⟨0, []⟩ commands level)
    (hsize : m.document.SizedBelow (2 ^ 63)) (hfuel : Program.nesting program ≤ fuel) :
    ∃ o final, Machine.run fuel program m = some o ∧ o.Fits final commands level := by
  unfold copy at hp
  split at hp
  · obtain ⟨o, ho, hfits⟩ := (typed_copyToEach hp).leads hfuel m _ _ hm
    exact ⟨o, _, ho, hfits⟩
  · obtain ⟨around, first, rest, hfirst, rfl, htyped⟩ := typed_behind_firstPosition hp
    rw [nesting_append, Nat.max_le] at hfuel
    obtain ⟨o, ho, hfits⟩ := run_firstPosition hfirst hm hsize hfuel.1
    obtain ⟨o', ho', hfits'⟩ := Machine.Fits.run_append ho hfits fun m' hm' =>
      htyped.leads hfuel.2 m' _ _ hm'
    exact ⟨o', _, ho', hfits'⟩
  · obtain ⟨o, ho, hfits⟩ := (typed_copyOne hp).leads hfuel m _ _ hm
    exact ⟨o, _, ho, hfits⟩

/-- Whatever a machine was left with, a reset empties its stacks and leaves its loops. -/
theorem step_reset (run : Runner) (m : Machine) :
    ∃ o, Machine.step run .reset m = some o ∧ o.Fits ⟨0, []⟩ [] 0 ∧
      o.machine.document = m.document := by
  obtain ⟨left, hrun, hlevel⟩ : ∃ left : Machine,
      Instruction.reset.perform.run (m.announce .reset) = .ok () left ∧ left.loopLevel = 0 :=
    ⟨_, rfl, rfl⟩
  have hshows := m.at_reset
  rw [hrun] at hshows
  cases hshows with
  | ok hleft =>
    have hcarry : (m.announce .reset).carryOut run .reset = some (.done left) := by
      show some (Outcome.ofEffect _ _) = _
      rw [Outcome.ofEffect, hrun]
    have hfits : left.Fits ⟨0, []⟩ [] 0 :=
      ⟨hlevel, _, hleft.limits ▸ hleft, rfl, rfl, .nil⟩
    refine ⟨left.complete .reset, ?_, hfits.complete .reset, ?_⟩
    · rw [Machine.step, hcarry]
    · exact (left.document_complete .reset).trans hleft.document

/-- **The program of a move never misuses a machine.** On any machine, whatever is on its stacks,
wherever its cursor is and however many loops it believes to run, the run of the program ends. If it
fails, no stack was too short, no value was of the wrong kind, and the cursor had not lost its node:
what is left are the other navigation errors and the ceilings. If it succeeds, the command stack is
empty, and no loop is running.

No container that is kept in memory has 2⁶³ items, but a list may have; so many could not be added
up as words. -/
theorem execute_never_misuses {move : Move} {program : Program} (hp : move.program = .ok program)
    {m : Machine} (hsize : m.document.SizedBelow (2 ^ 63)) :
    ∃ o, (∀ fuel, Program.nesting program ≤ fuel → m.execute fuel program = some o) ∧
      (∀ e m', o = .failed e m' → ¬ e.cause.IsMisuse) ∧
      ∀ m', o = .done m' → m'.commands.items = [] ∧ m'.loopLevel = 0 := by
  obtain ⟨⟨source, target⟩, -, hp⟩ := bind_eq_ok.1 hp
  obtain ⟨rest, hcopy, hp⟩ := bind_eq_ok.1 hp
  cases hp
  have hsuffices : ∃ o final, Machine.run (Program.nesting (.reset :: rest)) (.reset :: rest)
      (m.record (.executing (rest.length + 1) m.trace)) = some o ∧ o.Fits final [] 0 := by
    obtain ⟨fuel, hfuel⟩ : ∃ fuel, Program.nesting (.reset :: rest) = fuel + 1 :=
      ⟨Program.nesting (.reset :: rest) - 1, by have := le_nesting (.reset :: rest); omega⟩
    have hrest : Program.nesting rest ≤ fuel + 1 := by
      rw [← hfuel, Program.nesting]
      exact Nat.le_max_right _ _
    obtain ⟨o, ho, hfits, hdocument⟩ := step_reset (Machine.run fuel)
      (m.record (.executing (rest.length + 1) m.trace))
    rw [hfuel, Machine.run, inSequence, ho]
    cases o with
    | failed e m' => exact ⟨_, ⟨0, []⟩, rfl, hfits⟩
    | done m' =>
      have hsize' : m'.document.SizedBelow (2 ^ 63) := by
        rw [show m'.document = m.document from hdocument]
        exact hsize
      exact run_copy hcopy hfits hsize' hrest
  obtain ⟨o, final, ho, hfits⟩ := hsuffices
  refine ⟨o, fun fuel hfuel => Machine.run_mono hfuel ho, ?_, ?_⟩
  · rintro e m' rfl
    exact hfits
  · rintro m' rfl
    exact ⟨Machine.Fits.commands_items hfits, Machine.Fits.level hfits⟩

/-- A program fails after it has deleted the node of its cursor, with something on every stack. The
move behind it neither sees that node nor those stacks. -/
theorem execute_never_misuses_after_failure :
    ∃ (program : Program) (e : MachineError) (m : Machine) (o : Outcome),
      Move.program ⟨"$.a[*]", "$.b[*+$.a]", none⟩ = .ok program ∧
      (Machine.start (.object [("a", .array [.null]), ("d", .null)]) {} false).execute 1
        [.pushElement, .storeValue (.given (.text "u")), .pushCommand [.popValue],
          .moveIntoField .leaf "d", .delete, .pushElement] = some (.failed e m) ∧
      e.cause.IsMisuse ∧ m.cursor.detached = true ∧ m.commands.items.length = 1 ∧
      (∀ fuel, Program.nesting program ≤ fuel → m.execute fuel program = some o) ∧
      (∀ e m', o = .failed e m' → ¬ e.cause.IsMisuse) ∧
      ∀ m', o = .done m' → m'.commands.items = [] ∧ m'.loopLevel = 0 := by
  obtain ⟨program, hp⟩ := exists_ok_of_isOk (x := Move.program ⟨"$.a[*]", "$.b[*+$.a]", none⟩) rfl
  obtain ⟨e, m, hleft, hcause, hdetached, hcommands, hdocument⟩ : ∃ e m,
      (Machine.start (.object [("a", .array [.null]), ("d", .null)]) {} false).execute 1
        [.pushElement, .storeValue (.given (.text "u")), .pushCommand [.popValue],
          .moveIntoField .leaf "d", .delete, .pushElement] = some (.failed e m) ∧
      e.cause.IsMisuse ∧ m.cursor.detached = true ∧ m.commands.items.length = 1 ∧
      m.document = .object [("a", .array [.null])] := ⟨_, _, rfl, trivial, rfl, rfl, rfl⟩
  have hsize : m.document.SizedBelow (2 ^ 63) := by
    rw [hdocument]
    exact Json.sizedBelow_of_widest_lt _ (by decide)
  obtain ⟨o, ho, hfailed, hdone⟩ := execute_never_misuses hp hsize
  exact ⟨program, e, m, o, hp, hleft, hcause, hdetached, hcommands, ho, hfailed, hdone⟩

end Move

end Reshape
