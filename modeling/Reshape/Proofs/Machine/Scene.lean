import Reshape.Machine.Fuel
import Reshape.Proofs.Cursor.Change
import Reshape.Proofs.Machine.Effect
import Reshape.Proofs.Move.Walk
import Reshape.Proofs.Number.Exact

/-!
# Single instructions on scenes

A scene is what a compiled program can see of a machine. On scenes, an instruction is compared with
a function that may find fault with the document.

* `Scene`, and `Machine.At`, the machines that show a scene;
* `Fault.Explains`, how a program may stop early at a fault;
* `Acts`, what an instruction does, with one lemma for each instruction of a compiled program.
-/

namespace Reshape

/-- What a compiled program can see of a machine. -/
structure Scene where
  place : Place
  elements : List Json
  values : List Json
  commands : List Program
  operations : Nat

/-- The scene with one more instruction completed. -/
def Scene.tick (s : Scene) : Scene := { s with operations := s.operations + 1 }

/-- A machine that shows a scene. Its cursor is attached, and knows the way up. -/
structure Machine.At (limits : Limits) (s : Scene) (m : Machine) : Prop where
  document : m.document = s.place.document
  trail : m.cursor.trail = s.place.trail
  attached : m.cursor.detached = false
  paired : m.cursor.paths.length = m.cursor.states.length
  elements : m.elements.items = s.elements
  values : m.values.items = s.values
  commands : m.commands.items = s.commands
  operations : m.operations = s.operations
  limits : m.limits = limits

namespace Machine.At

variable {limits : Limits} {s : Scene} {m : Machine}

theorem current? (h : m.At limits s) : m.cursor.current? = some s.place.node := by
  rw [Cursor.current?_of_attached h.attached, h.trail]
  exact (congrArg _ h.document).trans s.place.resolves

theorem current (h : m.At limits s) : m.cursor.current = .ok s.place.node := by
  simp [Cursor.current, h.current?]

theorem record (h : m.At limits s) (event : Event) : (m.record event).At limits s := { h with }

theorem announce (h : m.At limits s) (i : Instruction) : (m.announce i).At limits s := by
  unfold Machine.announce
  split
  · exact h.record _
  · exact h

theorem confirm (h : m.At limits s) (i : Instruction) : (m.confirm i).At limits s := by
  unfold Machine.confirm
  split
  · exact h.record _
  · exact h

/-- A change of the node under the cursor. -/
theorem put (h : m.At limits s) (value : Json) :
    ({ m with cursor := { m.cursor with
        document := Json.replace m.cursor.trail value m.document } } : Machine).At limits
      { s with place := s.place.put value } :=
  { h with document := by rw [h.trail, h.document]; rfl }

end Machine.At

theorem Stack.pop_of_items {α : Type} {stack : Stack α} {top : α} {rest : List α}
    (h : stack.items = top :: rest) : stack.pop = .ok (top, { stack with items := rest }) := by
  simp [Stack.pop, h]

/-! ### Ends of a run -/

/-- A failure of the kind of a fault. The cursor has not lost its node. -/
def Fault.Explains : Fault → Failure → Prop
  | .navigation, .navigation .detached => False
  | .navigation, .navigation _ => True
  | .padding, .paddingLimitExceeded .. => True
  | _, _ => False

/-- An effect leaves a machine that shows a scene, or fails for the same reason. -/
inductive Shows (limits : Limits) :
    EStateM.Result Failure Machine Unit → Except Fault Scene → Prop
  | ok {s : Scene} {m : Machine} (hm : m.At limits s) : Shows limits (.ok () m) (.ok s)
  | error {fault : Fault} {e : Failure} (m : Machine) (he : fault.Explains e) :
    Shows limits (.error e m) (.error fault)

/-- On a scene, an instruction that runs no other comes to a scene, or finds fault. -/
def Acts (limits : Limits) (i : Instruction) (s : Scene) (result : Except Fault Scene) : Prop :=
  (∀ run m, Machine.carryOut run i m = some (.ofEffect i.perform m)) ∧
    ∀ m, m.At limits s → Shows limits (i.perform.run m) result

/-! ### Instructions on the cursor -/

section Acts

variable {limits : Limits}

theorem acts_moveToRoot (s : Scene) :
    Acts limits .moveToRoot s (.ok { s with place := .atRoot s.place.document }) := by
  refine ⟨fun _ _ => rfl, fun m h => ?_⟩
  exact .ok { h with trail := rfl, attached := rfl, paired := rfl }

theorem acts_moveOut (s : Scene) :
    Acts limits .moveOut s (.ok { s with place := s.place.up }) := by
  refine ⟨fun _ _ => rfl, fun m h => ?_⟩
  refine @Shows.ok limits _ { m with cursor := m.cursor.moveOut } ?_
  have hpaired := h.paired
  have htrail := h.trail
  cases hs : m.cursor.states.items with
  | nil =>
    -- The cursor is at the root, where it stays.
    have hout : m.cursor.moveOut = m.cursor := by simp [Cursor.moveOut, hs]
    have hroot : s.place.trail = [] := by rw [← htrail, Cursor.trail_eq_nil_iff, hs]
    refine { h with document := ?_, trail := ?_, attached := ?_, paired := ?_ }
    · rw [Machine.document, hout]
      exact h.document
    · rw [hout, htrail]
      simp [hroot]
    · rw [hout]
      exact h.attached
    · rw [hout]
      exact hpaired
  | cons last above =>
    -- A path was saved with the locator, since the stacks are equally long.
    obtain ⟨path, paths, hp⟩ : ∃ path paths, m.cursor.paths.items = path :: paths := by
      refine List.exists_cons_of_ne_nil fun hnil => ?_
      simp [Stack.length, hnil, hs] at hpaired
    rw [Cursor.trail_of_states hs] at htrail
    simp only [Stack.length, hs, hp, List.length_cons, Nat.add_right_cancel_iff] at hpaired
    refine { h with document := ?_, trail := ?_, attached := ?_, paired := ?_ }
    · exact (Cursor.document_moveOut m.cursor).trans h.document
    · simp only [Cursor.moveOut, hs, hp, Cursor.trail, Stack.toList, Place.trail_up, ← htrail]
      simp
    · simp [Cursor.moveOut, hs, hp]
    · simpa [Cursor.moveOut, hs, hp, Stack.length] using hpaired

/-- A cursor that has changed its node and moved into a child of it. -/
theorem Machine.At.descend {s : Scene} {m : Machine} (h : m.At limits s) {inner : Place}
    {locator : Locator} (ht : inner.trail = [locator]) :
    ({ m with cursor := Cursor.intoChild { m.cursor with
        document := Json.replace m.cursor.trail inner.document m.document } locator } :
      Machine).At limits { s with place := inner.within s.place } := by
  refine { h with document := ?_, trail := ?_, paired := ?_ }
  · rw [h.trail, h.document]
    rfl
  · rw [Cursor.trail_intoChild, ← ht]
    exact congrArg (· ++ inner.trail) h.trail
  · exact congrArg (· + 1) h.paired

theorem withField_object (mode : FieldMode) (name : String) (fields : List (String × Json)) :
    Cursor.withField mode name (.object fields) =
      .ok (.object (Entries.insert name (Hop.entered mode (Entries.get? name fields)) fields)) := by
  cases hg : Entries.get? name fields with
  | none => simp [Cursor.withField, Hop.entered, hg]
  | some existing =>
    by_cases ha : mode.accepts existing
    · simp [Cursor.withField, Hop.entered, hg, ha, Option.filter, Entries.insert_of_get? hg]
    · simp [Cursor.withField, Hop.entered, hg, ha, Option.filter]

theorem withIndex_array {position : Nat} (h : position < Number.lastIndex) (limit : Nat)
    (items : List Json) :
    Cursor.withIndex limit position (.array items) =
      if limit < position + 1 - items.length then
        .error (.padding position items.length limit)
      else .ok (.array (Hop.filled position items)) := by
  have hmissing : Cursor.missingItems position items.length = position + 1 - items.length := by
    rw [Cursor.missingItems, Nat.min_eq_left (by omega)]
  unfold Cursor.withIndex Hop.filled
  simp only [hmissing]
  by_cases h0 : position + 1 - items.length = 0
  · simp [h0]
  · simp [h0]

theorem acts_moveIntoField (mode : FieldMode) (name : String) (s : Scene) :
    Acts limits (.moveIntoField mode name) s
      ((fun inner => { s with place := inner.within s.place }) <$>
        (Hop.field mode name).enter limits.arrayPadding s.place.node) := by
  refine ⟨fun _ _ => rfl, fun m h => ?_⟩
  rw [Instruction.perform, Effect.run_moveCursor, Cursor.intoField_of_current? h.current?]
  cases hn : s.place.node with
  | object fields =>
    rw [withField_object]
    exact .ok (h.descend rfl)
  | _ => exact .error _ trivial

/-- An index is read from a machine before the step is made. -/
theorem acts_moveIntoIndex {s : Scene} {operand : Operand} (index : Number)
    (hv : ∀ m, m.At limits s → operand.resolve m = .ok (.number index))
    (hlast : ∀ position, index.toIndex? = some position → position < Number.lastIndex) :
    Acts limits (.moveIntoIndex operand) s
      ((fun inner => { s with place := inner.within s.place }) <$>
        (Hop.item index.toIndex?).enter limits.arrayPadding s.place.node) := by
  refine ⟨fun _ _ => rfl, fun m h => ?_⟩
  obtain rfl := h.limits
  -- Reading the operand changes nothing, so only the step is left.
  have hrun : (Instruction.moveIntoIndex operand).perform.run m =
      (Effect.intoIndex (.number index)).run m := by
    simp [Instruction.perform, Effect.run_lift, hv m h]
  rw [hrun]
  cases hi : index.toIndex? with
  | none =>
    rw [Effect.run_intoIndex_of_none hi]
    exact .error _ trivial
  | some position =>
    rw [@Effect.run_intoIndex (.number index) position hi, Cursor.intoIndex_of_current? h.current?]
    cases hn : s.place.node with
    | array items =>
      rw [withIndex_array (hlast position hi)]
      by_cases hl : m.limits.arrayPadding < position + 1 - items.length
      · simp only [Hop.enter, if_pos hl]
        exact .error _ trivial
      · simp only [Hop.enter, if_neg hl]
        exact .ok (h.descend rfl)
    | _ => exact .error _ trivial

/-! ### Instructions on the stacks -/

variable {p : Place} {elements values : List Json} {commands : List Program} {operations : Nat}

theorem acts_pushElement :
    Acts limits .pushElement ⟨p, elements, values, commands, operations⟩
      (.ok ⟨p, p.node :: elements, values, commands, operations⟩) := by
  refine ⟨fun _ _ => rfl, fun m h => ?_⟩
  simp only [Instruction.perform, EStateM.run_bind, Effect.run_current, h.current,
    Effect.run_giveElement]
  exact .ok { h with elements := congrArg (p.node :: ·) h.elements }

theorem Machine.At.write {s : Scene} {m : Machine} (h : m.At limits s) (value : Json) :
    Shows limits ((Effect.write value).run m) (.ok { s with place := s.place.put value }) := by
  have hr : (Json.resolve m.cursor.trail m.cursor.document).isSome := by
    rw [← Cursor.current?_of_attached h.attached, h.current?]
    rfl
  rw [Effect.write, Effect.run_moveCursor, Cursor.write_of_attached h.attached hr]
  exact .ok (h.put value)

theorem acts_popElement {value : Json} :
    Acts limits .popElement ⟨p, value :: elements, values, commands, operations⟩
      (.ok ⟨p.put value, elements, values, commands, operations⟩) := by
  refine ⟨fun _ _ => rfl, fun m h => ?_⟩
  have hpop := Stack.pop_of_items h.elements
  simp only [Instruction.perform, EStateM.run_bind, Effect.run_takeElement, hpop]
  have hm : ({ m with elements := { m.elements with items := elements } } : Machine).At limits
      ⟨p, elements, values, commands, operations⟩ := { h with elements := rfl }
  exact hm.write value

theorem acts_storeElement (value : Json) :
    Acts limits (.storeElement value) ⟨p, elements, values, commands, operations⟩
      (.ok ⟨p.put value, elements, values, commands, operations⟩) :=
  ⟨fun _ _ => rfl, fun _ h => h.write value⟩

theorem acts_duplicateElement {value : Json} :
    Acts limits .duplicateElement ⟨p, value :: elements, values, commands, operations⟩
      (.ok ⟨p, value :: value :: elements, values, commands, operations⟩) := by
  refine ⟨fun _ _ => rfl, fun m h => ?_⟩
  have hdup : Stack.duplicate m.elements = .ok (m.elements.push value) := by
    simp [Stack.duplicate, Stack.peek, Stack.peekAt, h.elements, Except.map]
  simp only [Instruction.perform, Effect.run_arrangeElements, hdup]
  exact .ok { h with elements := congrArg (value :: ·) h.elements }

theorem acts_mapElement {value : Json} (table : Mapping) :
    Acts limits (.mapElement table) ⟨p, value :: elements, values, commands, operations⟩
      (.ok ⟨p, mapText table value :: elements, values, commands, operations⟩) := by
  refine ⟨fun _ _ => rfl, fun m h => ?_⟩
  have hpop := Stack.pop_of_items h.elements
  simp only [Instruction.perform, EStateM.run_bind, Effect.run_takeElement, hpop,
    Effect.run_giveElement]
  exact .ok { h with elements := rfl }

/-! ### Instructions that count -/

theorem Machine.At.leaveValues {s : Scene} {m : Machine} (h : m.At limits s) (rest : List Json) :
    ({ m with values := { m.values with items := rest } } : Machine).At limits
      { s with values := rest } :=
  { h with values := rfl }

theorem Machine.At.giveValue {s : Scene} {m : Machine} (h : m.At limits s) (value : Json) :
    ({ m with values := m.values.push value } : Machine).At limits
      { s with values := value :: s.values } :=
  { h with values := congrArg (value :: ·) h.values }

theorem resolve_value {depth : Nat} {value : Json} (h : values[depth]? = some value) (m : Machine)
    (hm : m.At limits ⟨p, elements, values, commands, operations⟩) :
    (Operand.value depth).resolve m = .ok value := by
  have hpeek : m.values.peekAt depth = .ok value := by
    simp only [Stack.peekAt, hm.values, h]
  simp only [Operand.resolve, hpeek, mapError_ok]

/-- A value is pushed that is read from a machine. -/
theorem acts_storeValue {operand : Operand} {value : Json}
    (hv : ∀ m, m.At limits ⟨p, elements, values, commands, operations⟩ →
      operand.resolve m = .ok value) :
    Acts limits (.storeValue operand) ⟨p, elements, values, commands, operations⟩
      (.ok ⟨p, elements, value :: values, commands, operations⟩) := by
  refine ⟨fun _ _ => rfl, fun m h => ?_⟩
  have hrun : (Instruction.storeValue operand).perform.run m =
      .ok () { m with values := m.values.push value } := by
    simp [Instruction.perform, Effect.run_lift, hv m h, Effect.run_giveValue]
  rw [hrun]
  exact .ok (h.giveValue value)

theorem acts_popValue {value : Json} :
    Acts limits .popValue ⟨p, elements, value :: values, commands, operations⟩
      (.ok ⟨p, elements, values, commands, operations⟩) := by
  refine ⟨fun _ _ => rfl, fun m h => ?_⟩
  have hpop := Stack.pop_of_items h.values
  simp only [Instruction.perform, EStateM.run_bind, Effect.run_takeValue, hpop]
  exact .ok (h.leaveValues values)

theorem acts_storeSize :
    Acts limits .storeSize ⟨p, elements, values, commands, operations⟩
      ((fun count => ⟨p, elements, Json.ofNat count :: values, commands, operations⟩) <$>
        size p.node) := by
  refine ⟨fun _ _ => rfl, fun m h => ?_⟩
  have hcurrent := h.current
  simp only [Instruction.perform, Effect.storeSize, EStateM.run_bind, Effect.run_current, hcurrent,
    size]
  cases p.node.length? with
  | none => exact .error _ trivial
  | some count => exact .ok (h.giveValue _)

theorem acts_storeSize_of_size {count : Nat} (h : size p.node = .ok count) :
    Acts limits .storeSize ⟨p, elements, values, commands, operations⟩
      (.ok ⟨p, elements, Json.ofNat count :: values, commands, operations⟩) := by
  have hacts := @acts_storeSize limits p elements values commands operations
  rwa [h] at hacts

theorem run_takeWord {m : Machine} {value : Json} {word : Int64}
    (hv : m.values.items = value :: values) (hw : value.toWord? = some word) :
    Effect.takeWord.run m = .ok word { m with values := { m.values with items := values } } := by
  have hpop := Stack.pop_of_items hv
  simp only [Effect.takeWord, EStateM.run_bind, Effect.run_takeValue, hpop, hw]
  rfl

theorem acts_increment_word {value : Json} {word : Int64} (hw : value.toWord? = some word) :
    Acts limits .increment ⟨p, elements, value :: values, commands, operations⟩
      (.ok ⟨p, elements, Json.ofWord (word + 1) :: values, commands, operations⟩) := by
  refine ⟨fun _ _ => rfl, fun m h => ?_⟩
  rw [Instruction.perform, Effect.mapWord, Effect.run_bind_of_ok (run_takeWord h.values hw),
    Effect.run_giveValue]
  exact .ok ((h.leaveValues values).giveValue _)

theorem acts_increment {count : Nat} (hc : count + 1 ≤ 2 ^ 53) :
    Acts limits .increment ⟨p, elements, Json.ofNat count :: values, commands, operations⟩
      (.ok ⟨p, elements, Json.ofNat (count + 1) :: values, commands, operations⟩) := by
  have hsum : Json.ofWord (Int64.ofInt count + 1) = Json.ofNat (count + 1) := Json.ofWord_add hc
  rw [← hsum]
  exact acts_increment_word (Json.toWord?_ofNat (Nat.le_of_succ_le hc))

theorem acts_add_words {first second : Json} {left right : Int64} (hf : first.toWord? = some left)
    (hs : second.toWord? = some right) :
    Acts limits .add ⟨p, elements, second :: first :: values, commands, operations⟩
      (.ok ⟨p, elements, Json.ofWord (left + right) :: values, commands, operations⟩) := by
  refine ⟨fun _ _ => rfl, fun m h => ?_⟩
  have hleft : ({ m with values := { m.values with items := first :: values } } :
      Machine).values.items = first :: values := rfl
  rw [Instruction.perform, Effect.combineWords, Effect.run_bind_of_ok (run_takeWord h.values hs),
    Effect.run_bind_of_ok (run_takeWord hleft hf), Effect.run_giveValue]
  exact .ok ((h.leaveValues values).giveValue _)

theorem acts_add {first second : Nat} (hc : first + second ≤ 2 ^ 53) :
    Acts limits .add
      ⟨p, elements, Json.ofNat second :: Json.ofNat first :: values, commands, operations⟩
      (.ok ⟨p, elements, Json.ofNat (first + second) :: values, commands, operations⟩) := by
  rw [← Json.ofWord_add hc]
  exact acts_add_words (Json.toWord?_ofNat (by omega)) (Json.toWord?_ofNat (by omega))

theorem acts_compare_numbers (first second : Number) :
    Acts limits (.compare .ge)
      ⟨p, elements, .number second :: .number first :: values, commands, operations⟩
      (.ok ⟨p, elements, .bool (second.le first) :: values, commands, operations⟩) := by
  refine ⟨fun _ _ => rfl, fun m h => ?_⟩
  have hsecond := Stack.pop_of_items h.values
  have hfirst : Stack.pop { m.values with items := Json.number first :: values } =
      .ok (.number first, { m.values with items := values }) := rfl
  have hcompare : compareValues .ge (.number first) (.number second) = .ok (second.le first) := rfl
  simp only [Instruction.perform, EStateM.run_bind, Effect.run_takeValue, hsecond, hfirst,
    Effect.run_lift, hcompare, Effect.run_giveValue]
  exact .ok ((h.leaveValues values).giveValue _)

theorem acts_compare {first second : Nat} (hf : first ≤ 2 ^ 53) (hs : second ≤ 2 ^ 53) :
    Acts limits (.compare .ge)
      ⟨p, elements, Json.ofNat second :: Json.ofNat first :: values, commands, operations⟩
      (.ok ⟨p, elements, .bool (decide (second ≤ first)) :: values, commands, operations⟩) := by
  rw [← Number.le_ofNat hs hf]
  exact acts_compare_numbers _ _

theorem acts_pushCommand (body : Program) :
    Acts limits (.pushCommand body) ⟨p, elements, values, commands, operations⟩
      (.ok ⟨p, elements, values, body :: commands, operations⟩) :=
  ⟨fun _ _ => rfl, fun _ h => .ok { h with commands := congrArg (body :: ·) h.commands }⟩

/-- Whatever a machine shows, a reset leaves the root of its document. -/
theorem Machine.at_reset (m : Machine) :
    Shows m.limits (Instruction.reset.perform.run (m.announce .reset))
      (.ok ⟨.atRoot m.document, [], [], [], m.operations⟩) := by
  unfold Machine.announce
  split <;> exact .ok ⟨rfl, rfl, rfl, rfl, rfl, rfl, rfl, rfl, rfl⟩

end Acts

end Reshape
