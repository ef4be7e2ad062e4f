import Reshape.Move.Apply
import Reshape.Proofs.Move.Direct
import Reshape.Proofs.Path.Printable

/-!
# The moves that have a program

Which moves have a program is decided by the components of their paths that can name more than one
node. The checks that are made for each strategy refuse a path for nothing else: the routes around
an array pattern are never blocked, and the offset path of a component that was read is an
expression.

* `Path.patterns`, and what `ArrayPath.ofComponents?` makes of them;
* `Component.StandsInOffset` and `Component.TakesItems`, where items can be written to;
* `Move.Accepted`, the pairs of paths with a program, and `Move.LacksTarget`, the ones that lack a
  pattern;
* `Move.Verdict`, what they make of a move, and `verdict_copy`, which has a case for each strategy;
* `map_program_withMapping`: the table plays no part;
* `program_outcome`.
-/

namespace Reshape

/-- The components of a path that can name more than one node. -/
def Path.patterns (path : List Component) : List Component := path.filter Component.isPattern

/-- A component that an offset path can have: for a single node, or for all items of an array, which
then stands for the array. -/
def Component.StandsInOffset : Component → Prop
  | .field _ => True
  | .arrayIndex .. => True
  | .arrayAll _ => True
  | _ => False

/-- A component for all items of an array. If it has an offset path, this has to be one that can be
followed. -/
def Component.TakesItems : Component → Prop
  | .arrayAll _ => True
  | .arrayAllOffset _ offset => ∃ path, Path.parse offset = .ok path ∧
      ∀ component ∈ path, component.StandsInOffset
  | _ => False

theorem Component.TakesItems.isItems {component : Component} (h : component.TakesItems) :
    component.IsItems := by
  cases component with
  | arrayAll field => trivial
  | arrayAllOffset field offset => trivial
  | _ => exact h.elim

namespace Move

/-- The pairs of paths that there is a program for, one case for each strategy. -/
inductive Accepted (source target : List Component) : Prop
  | simpleMove (hs : Path.patterns source = []) (ht : Path.patterns target = [])
  | replication {array : Component} (hs : Path.patterns source = [])
      (ht : Path.patterns target = [array]) (harray : array.IsItems)
  | patternMove {field : String} {array : Component} (hs : Path.patterns source = [.arrayAll field])
      (ht : Path.patterns target = [array]) (harray : array.TakesItems)

/-- The source is for the items of an array, and the target is for a single node. -/
inductive LacksTarget (source target : List Component) : Prop
  | intro {array : Component} (hs : Path.patterns source = [array]) (harray : array.IsItems)
      (ht : Path.patterns target = [])

end Move

/-! ### Routes -/

namespace Route

theorem exists_along? (mode : FieldMode) {component : Component} (h : component.IsSingle) :
    ∃ route, along? mode component = .ok route := by
  cases component with
  | field name => exact ⟨_, rfl⟩
  | arrayIndex field index => exact ⟨_, rfl⟩
  | _ => cases h

/-- Components for single nodes have a route. -/
theorem exists_to? (mode : FieldMode) {path : List Component}
    (h : ∀ component ∈ path, component.IsSingle) : ∃ route, to? mode path = .ok route := by
  induction path with
  | nil => exact ⟨stay, rfl⟩
  | cons component rest ih =>
    obtain ⟨hfirst, hrest⟩ := List.forall_mem_cons.1 h
    cases rest with
    | nil => exact exists_along? mode hfirst
    | cons next rest =>
      obtain ⟨first, hfirst⟩ := exists_along? .object hfirst
      obtain ⟨route, hroute⟩ := ih hrest
      refine ⟨first.append route, ?_⟩
      rw [to?, hfirst]
      · simp only [hroute]
        rfl
      · exact List.cons_ne_nil next rest

theorem exists_toOffset?_cons {component : Component} (h : component.StandsInOffset)
    (rest : List Component) :
    ∃ first : Route, toOffset? (component :: rest) = (toOffset? rest).map first.append := by
  cases component with
  | field name => exact ⟨_, rfl⟩
  | arrayIndex field index => exact ⟨_, rfl⟩
  | arrayAll field => exact ⟨_, rfl⟩
  | _ => exact h.elim

/-- An offset path has a route exactly if all of its components can stand in it. -/
theorem exists_toOffset?_iff {path : List Component} :
    (∃ route, toOffset? path = .ok route) ↔ ∀ component ∈ path, component.StandsInOffset := by
  induction path with
  | nil => exact iff_of_true ⟨stay, rfl⟩ (List.forall_mem_nil _)
  | cons component rest ih =>
    rw [List.forall_mem_cons, ← ih]
    by_cases hstands : component.StandsInOffset
    · obtain ⟨first, hcons⟩ := exists_toOffset?_cons hstands rest
      rw [hcons]
      constructor
      · rintro ⟨route, h⟩
        obtain ⟨behind, hbehind, -⟩ := map_eq_ok.1 h
        exact ⟨hstands, behind, hbehind⟩
      · rintro ⟨-, behind, hbehind⟩
        exact ⟨_, map_eq_ok.2 ⟨behind, hbehind, rfl⟩⟩
    · refine iff_of_false ?_ (fun h => hstands h.1)
      rintro ⟨route, h⟩
      cases component <;> first | exact hstands trivial | cases h

end Route

/-! ### Patterns of a path -/

namespace Path

theorem patterns_eq_nil {path : List Component} :
    patterns path = [] ↔ ∀ component ∈ path, component.IsSingle := by
  simp only [patterns, List.filter_eq_nil_iff, Component.IsSingle, Bool.not_eq_true]

theorem any_isPattern_iff {path : List Component} :
    path.any Component.isPattern = true ↔ patterns path ≠ [] := by
  simp [patterns, List.filter_eq_nil_iff]

end Path

namespace ArrayPath

theorem patterns_components {around : ArrayPath} (h : around.WellFormed) :
    Path.patterns around.components = [around.array] := by
  have hbefore : Path.patterns around.before = [] := Path.patterns_eq_nil.2 h.before
  have hafter : Path.patterns around.after = [] := Path.patterns_eq_nil.2 h.after
  rw [Path.patterns] at hbefore hafter ⊢
  rw [components, List.filter_append, List.filter_cons_of_pos h.array.isPattern, hbefore, hafter]
  rfl

/-- A path with one pattern, for the items of an array, is an array path. -/
theorem exists_components_of_patterns {path : List Component} {array : Component}
    (h : Path.patterns path = [array]) (harray : array.IsItems) :
    ∃ around : ArrayPath, around.WellFormed ∧ path = around.components ∧ around.array = array := by
  obtain ⟨before, after, hpath, hbefore, -, hafter⟩ := List.filter_eq_cons_iff.1 h
  refine ⟨⟨before, array, after⟩, ⟨?_, harray, Path.patterns_eq_nil.1 hafter⟩, hpath, rfl⟩
  exact fun component hmem => Bool.eq_false_iff.2 (hbefore component hmem)

/-- The pattern is missing if there is no component for several nodes, and only then. -/
theorem ofComponents?_eq_missing {path : List Component} :
    ofComponents? path = .error .missing ↔ Path.patterns path = [] := by
  rw [Path.patterns_eq_nil]
  induction path with
  | nil => exact iff_of_true rfl (List.forall_mem_nil _)
  | cons component rest ih =>
    rw [List.forall_mem_cons, ← ih]
    by_cases hsingle : component.IsSingle
    · rw [ofComponents?_cons hsingle]
      cases ofComponents? rest with
      | ok around => exact iff_of_false nofun nofun
      | error refusal => simp [hsingle, Except.map]
    · refine iff_of_false (fun h => ?_) (fun h => hsingle h.1)
      by_cases hitems : component.IsItems
      · rw [ofComponents?_items hitems] at h
        split at h <;> cases h
      · cases component <;>
          first | exact (hsingle rfl).elim | exact (hitems trivial).elim | cases h

end ArrayPath

/-! ### The parts of a program -/

namespace Move

/-- Along components for single nodes no route is blocked. -/
theorem exists_route (mode : FieldMode) {path : List Component}
    (h : ∀ component ∈ path, component.IsSingle) : ∃ there, route mode path = .ok there := by
  obtain ⟨there, hthere⟩ := Route.exists_to? mode h
  exact ⟨there, mapError_eq_ok.2 hthere⟩

/-- The three ways in which a path is split at its array pattern, or not. -/
theorem arrayPath_cases (side : Side) (text : String) (path : List Component) :
    (∃ around, around.WellFormed ∧ path = around.components ∧
        arrayPath side text path = .ok around) ∨
      (Path.patterns path = [] ∧
        arrayPath side text path = .error (.missingArrayPattern side text)) ∨
      (Path.patterns path ≠ [] ∧ (∀ array, Path.patterns path = [array] → ¬ array.IsItems) ∧
        ∃ e, arrayPath side text path = .error (.unsupportedComponent e)) := by
  unfold arrayPath
  cases h : ArrayPath.ofComponents? path with
  | ok around =>
    obtain ⟨hpath, hwell⟩ := ArrayPath.ofComponents?_eq_ok.1 h
    exact .inl ⟨around, hwell, hpath, rfl⟩
  | error refusal =>
    cases refusal with
    | missing => exact .inr (.inl ⟨ArrayPath.ofComponents?_eq_missing.1 h, rfl⟩)
    | blocked e =>
      refine .inr (.inr ⟨fun hnone => ?_, fun array hone hitems => ?_, e, rfl⟩)
      · cases h.symm.trans (ArrayPath.ofComponents?_eq_missing.2 hnone)
      · obtain ⟨around, hwell, hpath, -⟩ := ArrayPath.exists_components_of_patterns hone hitems
        cases h.symm.trans (ArrayPath.ofComponents?_eq_ok.2 ⟨hpath, hwell⟩)

/-- The offset path of a component that was read is an expression, so that only its components can
be refused. -/
theorem firstPosition_cases {array : Component} (hitems : array.IsItems) (h : array.Printable) :
    (array.TakesItems ∧ ∃ program, firstPosition array = .ok program) ∨
      (¬ array.TakesItems ∧ ∃ e, firstPosition array = .error (.unsupportedComponent e)) := by
  cases array with
  | arrayAll field => exact .inl ⟨trivial, _, rfl⟩
  | arrayAllOffset field offset =>
    obtain ⟨path, hpath⟩ := h.2.accepted
    have hmeasure : firstPosition (.arrayAllOffset field offset) =
        ((Route.toOffset? path).mapError CompileError.unsupportedComponent).map
          fun route => fromRoot route ++ [.storeSize] := by
      change measure offset = _
      rw [measure, hpath]
      rfl
    rw [hmeasure]
    cases hroute : Route.toOffset? path with
    | ok route => exact .inl ⟨⟨path, hpath, Route.exists_toOffset?_iff.1 ⟨route, hroute⟩⟩, _, rfl⟩
    | error e =>
      refine .inr ⟨?_, e, rfl⟩
      rintro ⟨path', hpath', hstands⟩
      cases hpath.symm.trans hpath'
      obtain ⟨route, hok⟩ := Route.exists_toOffset?_iff.2 hstands
      cases hroute.symm.trans hok
  | _ => exact hitems.elim

/-! ### The program of each strategy -/

/-- What the patterns of two paths make of the attempt to copy from one to the other: a program, or
an error for a pattern that is missing or one that cannot be followed. -/
inductive Verdict (source target : List Component) (text : String) :
    Except CompileError Program → Prop
  | accepted {program : Program} (h : Accepted source target) :
      Verdict source target text (.ok program)
  | lacksTarget (h : LacksTarget source target) :
      Verdict source target text (.error (.missingArrayPattern .target text))
  | refused {e : Blocked} (h : ¬ Accepted source target) (h' : ¬ LacksTarget source target) :
      Verdict source target text (.error (.unsupportedComponent e))

variable {source target : List Component} {text : String}

namespace Verdict

/-- A source is refused whose patterns are not just one for the items of an array. -/
theorem refused_of_source {e : Blocked} (hs : Path.patterns source ≠ [])
    (h : ∀ array, Path.patterns source = [array] → ¬ array.IsItems) :
    Verdict source target text (.error (.unsupportedComponent e)) := by
  constructor
  · rintro (⟨hnone, -⟩ | ⟨hnone, -, -⟩ | ⟨hone, -, -⟩)
    · exact hs hnone
    · exact hs hnone
    · exact h _ hone trivial
  · rintro ⟨hone, hitems, -⟩
    exact h _ hone hitems

/-- A target is refused whose patterns are not just one for the items of an array. -/
theorem refused_of_target {e : Blocked} (ht : Path.patterns target ≠ [])
    (h : ∀ array, Path.patterns target = [array] → ¬ array.IsItems) :
    Verdict source target text (.error (.unsupportedComponent e)) := by
  constructor
  · rintro (⟨-, hnone⟩ | ⟨-, hone, hitems⟩ | ⟨-, hone, htakes⟩)
    · exact ht hnone
    · exact h _ hone hitems
    · exact h _ hone htakes.isItems
  · rintro ⟨-, -, hnone⟩
    exact ht hnone

/-- With one pattern in each path, the target has to take the items of the source. -/
theorem refused_of_patterns {e : Blocked} {first second : Component}
    (hs : Path.patterns source = [first]) (ht : Path.patterns target = [second])
    (h : ∀ field, first = .arrayAll field → ¬ second.TakesItems) :
    Verdict source target text (.error (.unsupportedComponent e)) := by
  constructor
  · rintro (⟨hnone, -⟩ | ⟨hnone, -, -⟩ | ⟨hone, hone', htakes⟩)
    · cases hs.symm.trans hnone
    · cases hs.symm.trans hnone
    · cases hs.symm.trans hone
      cases ht.symm.trans hone'
      exact h _ rfl htakes
  · rintro ⟨-, -, hnone⟩
    cases ht.symm.trans hnone

end Verdict

theorem verdict_copyOne (mapping : Option Mapping) (hs : Path.patterns source = [])
    (ht : Path.patterns target = []) :
    Verdict source target text (copyOne mapping source target) := by
  obtain ⟨toSource, hsource⟩ := exists_route .object (Path.patterns_eq_nil.1 hs)
  obtain ⟨toTarget, htarget⟩ := exists_route .leaf (Path.patterns_eq_nil.1 ht)
  rw [copyOne, hsource, ok_bind, htarget, ok_bind]
  exact .accepted (.simpleMove hs ht)

theorem verdict_copyToEach (mapping : Option Mapping) (hs : Path.patterns source = [])
    (ht : Path.patterns target ≠ []) :
    Verdict source target text (copyToEach mapping source target text) := by
  unfold copyToEach
  rcases arrayPath_cases .target text target with
    ⟨around, hwell, rfl, hpath⟩ | ⟨hnone, -⟩ | ⟨-, hother, e, hpath⟩
  · obtain ⟨toSource, hsource⟩ := exists_route .object (Path.patterns_eq_nil.1 hs)
    obtain ⟨toParent, hparent⟩ := exists_route .object hwell.before
    obtain ⟨toPlace, hplace⟩ := exists_route .object hwell.after
    rw [hpath, ok_bind, hsource, ok_bind, hparent, ok_bind, hplace, ok_bind]
    exact .accepted (.replication hs (ArrayPath.patterns_components hwell) hwell.array)
  · exact (ht hnone).elim
  · rw [hpath, error_bind]
    exact .refused_of_target ht hother

/-- With an array path on each side, the source may have no offset, and the one of the target has to
be one that can be followed. -/
theorem verdict_copyItems_of_arrayPaths (mapping : Option Mapping) {sourceText : String}
    {origin around : ArrayPath} (horigin : origin.WellFormed) (hwell : around.WellFormed)
    (hprintable : around.array.Printable)
    (hsource : arrayPath .source sourceText origin.components = .ok origin)
    (htarget : arrayPath .target text around.components = .ok around) :
    Verdict origin.components around.components text
      (copyItems mapping origin.components around.components sourceText text) := by
  have hfirst := ArrayPath.patterns_components horigin
  have hsecond := ArrayPath.patterns_components hwell
  rw [copyItems, hsource, ok_bind, htarget, ok_bind]
  cases harray : origin.array with
  | arrayAll field =>
    rw [harray] at hfirst
    simp only [Bool.false_eq_true, if_false]
    rcases firstPosition_cases hwell.array hprintable with ⟨htakes, first, hp⟩ | ⟨hfails, e, hp⟩
    · obtain ⟨toSource, hto⟩ := exists_route .object horigin.before
      obtain ⟨fromItem, hfrom⟩ := exists_route .leaf horigin.after
      obtain ⟨toTarget, htarget⟩ := exists_route .object hwell.before
      obtain ⟨toPlace, hplace⟩ := exists_route .leaf hwell.after
      rw [hp, ok_bind, hto, ok_bind, hfrom, ok_bind, htarget, ok_bind, hplace, ok_bind]
      exact .accepted (.patternMove hfirst hsecond htakes)
    · rw [hp, error_bind]
      exact .refused_of_patterns hfirst hsecond fun _ _ => hfails
  | arrayAllOffset field offset =>
    rw [harray] at hfirst
    exact .refused_of_patterns hfirst hsecond fun _ hplain => by cases hplain
  | _ => cases harray ▸ horigin.array

theorem verdict_copyItems (mapping : Option Mapping) (sourceText : String)
    (hs : Path.patterns source ≠ []) (hprintable : Path.Printable target) :
    Verdict source target text (copyItems mapping source target sourceText text) := by
  rcases arrayPath_cases .source sourceText source with
    ⟨origin, horigin, rfl, hsource⟩ | ⟨hnone, -⟩ | ⟨-, hother, e, hsource⟩
  · rcases arrayPath_cases .target text target with
      ⟨around, hwell, rfl, htarget⟩ | ⟨hnone, htarget⟩ | ⟨hpatterns, hother, e, htarget⟩
    · have harray : around.array.Printable :=
        hprintable.components _ (by simp [ArrayPath.components])
      exact verdict_copyItems_of_arrayPaths mapping horigin hwell harray hsource htarget
    · rw [copyItems, hsource, ok_bind, htarget, error_bind]
      exact .lacksTarget ⟨ArrayPath.patterns_components horigin, horigin.array, hnone⟩
    · rw [copyItems, hsource, ok_bind, htarget, error_bind]
      exact .refused_of_target hpatterns hother
  · exact (hs hnone).elim
  · rw [copyItems, hsource, error_bind]
    exact .refused_of_source hs hother

/-- Whatever is copied between two paths that were read, there is a program or one of two errors. -/
theorem verdict_copy (move : Move) (hprintable : Path.Printable target) :
    Verdict source target move.target (move.copy source target) := by
  unfold copy Strategy.select
  by_cases hs : Path.patterns source = []
  · have hsingle := any_isPattern_eq_false (Path.patterns_eq_nil.1 hs)
    by_cases ht : Path.patterns target = []
    · rw [hsingle, any_isPattern_eq_false (Path.patterns_eq_nil.1 ht)]
      exact verdict_copyOne move.mapping hs ht
    · rw [hsingle, Path.any_isPattern_iff.2 ht]
      exact verdict_copyToEach move.mapping hs ht
  · rw [Path.any_isPattern_iff.2 hs]
    exact verdict_copyItems move.mapping move.source hs hprintable

/-! ### The table -/

/-- The move with another table, or without one. -/
def withMapping (mapping : Option Mapping) (move : Move) : Move := { move with mapping }

theorem map_copyItems (mapping other : Option Mapping) (source target : List Component)
    (sourceText targetText : String) :
    (copyItems mapping source target sourceText targetText).map (fun _ => ()) =
      (copyItems other source target sourceText targetText).map fun _ => () := by
  simp only [copyItems, exceptMap_bind]
  refine bind_congr fun source => bind_congr fun target => ?_
  split
  · simp only [if_true, exceptMap_bind, exceptMap_pure]
  · simp only [Bool.false_eq_true, if_false, exceptMap_bind, exceptMap_pure]

/-- A move fails for its paths, whatever its table is. -/
theorem map_copy_withMapping (mapping : Option Mapping) (move : Move)
    (source target : List Component) :
    ((move.withMapping mapping).copy source target).map (fun _ => ()) =
      (move.copy source target).map fun _ => () := by
  unfold copy
  split
  · simp only [copyToEach, exceptMap_bind, exceptMap_pure, withMapping]
  · exact map_copyItems mapping move.mapping source target move.source move.target
  · simp only [copyOne, exceptMap_bind, exceptMap_pure, withMapping]

/-! ### The program of a move -/

/-- The program is the one that copies, behind a reset. -/
theorem program_eq (move : Move) :
    move.program = move.paths.mapError CompileError.path >>= fun read =>
      (move.copy read.1 read.2).map (Instruction.reset :: ·) := by
  refine bind_congr fun (source, target) => ?_
  change (move.copy source target >>= _) = (move.copy source target).map _
  cases move.copy source target <;> rfl

theorem map_program_withMapping (mapping : Option Mapping) (move : Move) :
    (move.withMapping mapping).program.map (fun _ => ()) = move.program.map fun _ => () := by
  rw [program_eq, program_eq, exceptMap_bind, exceptMap_bind]
  refine bind_congr fun read => ?_
  rw [exceptMap_map, exceptMap_map]
  exact map_copy_withMapping mapping move read.1 read.2

/-- With both paths read, it is their patterns that decide about the program. -/
theorem verdict_program {move : Move} (hs : Path.parse move.source = .ok source)
    (ht : Path.parse move.target = .ok target) :
    Verdict source target move.target move.program := by
  have hprogram : move.program = (move.copy source target).map (Instruction.reset :: ·) := by
    rw [program_eq, paths, hs, ok_bind, ht]
    rfl
  have hverdict : Verdict source target move.target (move.copy source target) :=
    verdict_copy move (Path.printable_of_parse ht)
  rw [hprogram]
  generalize move.copy source target = copied at hverdict
  cases hverdict with
  | accepted h => exact .accepted h
  | lacksTarget h => exact .lacksTarget h
  | refused h h' => exact .refused h h'

/-- A text that is no path is found by reading the source, or else the target. -/
theorem program_eq_path_iff {move : Move} {e : Path.SyntaxError} :
    move.program = .error (.path e) ↔ Path.parse move.source = .error e ∨
      (∃ source, Path.parse move.source = .ok source) ∧ Path.parse move.target = .error e := by
  cases hs : Path.parse move.source with
  | error e' =>
    have hprogram : move.program = .error (.path e') := by
      rw [program_eq, paths, hs]
      rfl
    simp [hprogram]
  | ok source =>
    cases ht : Path.parse move.target with
    | error e' =>
      have hprogram : move.program = .error (.path e') := by
        rw [program_eq, paths, hs, ok_bind, ht]
        rfl
      simp [hprogram]
    | ok target =>
      have hverdict := verdict_program hs ht
      generalize move.program = program at hverdict
      cases hverdict <;> simp

/-- An error of a path is found while the program is made, never by running it. -/
theorem apply_eq_path_iff {move : Move} {document : Json} {e : Path.SyntaxError} :
    move.apply document = .error (.path e) ↔ move.program = .error (.path e) := by
  unfold apply
  cases move.program with
  | error e' => cases e' <;> simp [MoveError.ofCompile]
  | ok program =>
    refine iff_of_false ?_ nofun
    dsimp only
    split <;> exact nofun

theorem LacksTarget.not_accepted (h : LacksTarget source target) : ¬ Accepted source target := by
  obtain ⟨hs, -, ht⟩ := h
  rintro (⟨hnone, -⟩ | ⟨hnone, -, -⟩ | ⟨-, hone, -⟩)
  · cases hs.symm.trans hnone
  · cases hs.symm.trans hnone
  · cases ht.symm.trans hone

namespace Verdict

variable {result : Except CompileError Program}

theorem exists_ok_iff (h : Verdict source target text result) :
    (∃ program, result = .ok program) ↔ Accepted source target := by
  cases h with
  | accepted h => exact iff_of_true ⟨_, rfl⟩ h
  | lacksTarget h => exact iff_of_false nofun h.not_accepted
  | refused h h' => exact iff_of_false nofun h

theorem eq_missing_iff (h : Verdict source target text result) (side : Side) (path : String) :
    result = .error (.missingArrayPattern side path) ↔
      LacksTarget source target ∧ side = .target ∧ path = text := by
  cases h with
  | accepted h => exact iff_of_false nofun fun ⟨h', _⟩ => h'.not_accepted h
  | lacksTarget h => simp [h, eq_comm]
  | refused h h' => exact iff_of_false nofun fun ⟨hlacks, _⟩ => h' hlacks

theorem exists_unsupported_iff (h : Verdict source target text result) :
    (∃ e, result = .error (.unsupportedComponent e)) ↔
      ¬ Accepted source target ∧ ¬ LacksTarget source target := by
  cases h with
  | accepted h => exact iff_of_false nofun fun ⟨h', _⟩ => h' h
  | lacksTarget h => exact iff_of_false nofun fun ⟨_, h'⟩ => h' h
  | refused h h' => exact iff_of_true ⟨_, rfl⟩ ⟨h, h'⟩

end Verdict

/-- **Which moves have a program.** A syntax error is one of the source, or else of the target; no
offset path has one that was not found by reading the target. The patterns of two paths decide all
the rest: whether there is a program, whether the target lacks a pattern, or whether a component
cannot be followed. The table plays no part. -/
theorem program_outcome (move : Move) :
    (∀ e, (move.program = .error (.path e) ↔ Path.parse move.source = .error e ∨
        (∃ source, Path.parse move.source = .ok source) ∧ Path.parse move.target = .error e) ∧
      ∀ document, move.apply document = .error (.path e) ↔ move.program = .error (.path e)) ∧
    (∀ source target, Path.parse move.source = .ok source → Path.parse move.target = .ok target →
      ((∃ program, move.program = .ok program) ↔ Accepted source target) ∧
      (∀ side text, move.program = .error (.missingArrayPattern side text) ↔
        LacksTarget source target ∧ side = .target ∧ text = move.target) ∧
      ((∃ e, move.program = .error (.unsupportedComponent e)) ↔
        ¬ Accepted source target ∧ ¬ LacksTarget source target)) ∧
    ∀ mapping, (move.withMapping mapping).program.map (fun _ => ()) =
      move.program.map fun _ => () := by
  refine ⟨fun e => ⟨program_eq_path_iff, fun document => apply_eq_path_iff⟩,
    fun source target hs ht => ?_, fun mapping => map_program_withMapping mapping move⟩
  have hverdict := verdict_program hs ht
  exact ⟨hverdict.exists_ok_iff, hverdict.eq_missing_iff, hverdict.exists_unsupported_iff⟩

/-- An offset path may have an array in it but no range, and items do not go to a single node, also
where an offset stands on the wrong side. -/
theorem program_outcome_of_offsets :
    (∃ program, Move.program ⟨"$.a[*].b", "$.c[*+$.d.e[*]].f", none⟩ = .ok program) ∧
      (∃ e, Move.program ⟨"$.a[*].b", "$.c[*+$.d.e[1:2]].f", none⟩ =
        .error (.unsupportedComponent e)) ∧
      Move.program ⟨"$.a[*+$.d].b", "$.c", none⟩ =
        .error (.missingArrayPattern .target "$.c") := by
  have hitems : Path.parse "$.a[*].b" = .ok [.arrayAll "a", .field "b"] := by decide +kernel
  have hpast : Path.parse "$.c[*+$.d.e[*]].f" =
      .ok [.arrayAllOffset "c" "$.d.e[*]", .field "f"] := by decide +kernel
  have hrange : Path.parse "$.c[*+$.d.e[1:2]].f" =
      .ok [.arrayAllOffset "c" "$.d.e[1:2]", .field "f"] := by decide +kernel
  have hoffset : Path.parse "$.d.e[*]" = .ok [.field "d", .arrayAll "e"] := by decide +kernel
  have hoffset' : Path.parse "$.d.e[1:2]" = .ok [.field "d", .arrayRange "e" 1 2] := by
    decide +kernel
  have hsource : Path.parse "$.a[*+$.d].b" = .ok [.arrayAllOffset "a" "$.d", .field "b"] := by
    decide +kernel
  have htarget : Path.parse "$.c" = .ok [.field "c"] := by decide +kernel
  have htakes : (Component.arrayAllOffset "c" "$.d.e[*]").TakesItems :=
    ⟨_, hoffset, by simp [Component.StandsInOffset]⟩
  have hlacks : LacksTarget [.arrayAllOffset "a" "$.d", .field "b"] [.field "c"] :=
    @LacksTarget.intro _ _ (.arrayAllOffset "a" "$.d") rfl trivial rfl
  obtain ⟨-, hpastOutcome, -⟩ := program_outcome ⟨"$.a[*].b", "$.c[*+$.d.e[*]].f", none⟩
  obtain ⟨-, hrangeOutcome, -⟩ := program_outcome ⟨"$.a[*].b", "$.c[*+$.d.e[1:2]].f", none⟩
  obtain ⟨-, hmissingOutcome, -⟩ := program_outcome ⟨"$.a[*+$.d].b", "$.c", none⟩
  refine ⟨?_, ?_, ?_⟩
  · exact (hpastOutcome _ _ hitems hpast).1.2 (.patternMove rfl rfl htakes)
  · refine (hrangeOutcome _ _ hitems hrange).2.2.2 ⟨?_, ?_⟩
    · rintro (⟨hnone, -⟩ | ⟨hnone, -, -⟩ | ⟨-, hone, htakes⟩)
      · cases hnone
      · cases hnone
      · cases hone
        obtain ⟨path, hpath, hstands⟩ := htakes
        cases hoffset'.symm.trans hpath
        exact hstands _ (.tail _ (.head _))
    · rintro ⟨-, -, hnone⟩
      cases hnone
  · exact ((hmissingOutcome _ _ hsource htarget).2.1 _ _).2 ⟨hlacks, rfl, rfl⟩

end Move

end Reshape
