import Reshape.Proofs.Machine.Step
import Reshape.Proofs.Number.Exact

/-!
# What an instruction that fails has done

An instruction first reads, then takes its operands off the stacks, and writes, moves or pushes last.
One that fails has therefore taken some of its operands and done nothing else: no field was put in,
no array filled up, no item of an array replaced.

* `Machine.without`, a machine from which elements and values have been taken;
* `Effect.Takes`, an effect that does no more than that, and `Effect.FailsTaking`, one that has done
  no more when it fails, with one lemma for each effect that instructions are made of;
* `Instruction.elementOperands` and `Instruction.valueOperands`, how many operands an instruction
  takes;
* `carryOut_failed_eq`, the machine that a failing instruction leaves.
-/

namespace Reshape

namespace Stack

variable {α : Type} {s rest : Stack α} {top : α}

/-- A stack without so many items at the top, or without any if there are fewer. -/
def drop (s : Stack α) (count : Nat) : Stack α := { s with items := s.items.drop count }

theorem drop_drop (s : Stack α) (first second : Nat) :
    (s.drop first).drop second = s.drop (second + first) := by
  simp [drop, Nat.add_comm]

theorem eq_drop_one_of_pop (h : s.pop = .ok (top, rest)) : rest = s.drop 1 := by
  obtain ⟨name, items⟩ := s
  cases items <;> cases h
  rfl

end Stack

namespace Machine

/-- A machine from which so many elements and so many values have been taken. -/
def without (m : Machine) (elements values : Nat) : Machine :=
  { m with elements := m.elements.drop elements, values := m.values.drop values }

theorem without_without (m : Machine) (elements values elements' values' : Nat) :
    (m.without elements values).without elements' values' =
      m.without (elements' + elements) (values' + values) := by
  simp [without, Stack.drop_drop]

end Machine

namespace Effect

variable {α β : Type} {elements values elements' values' : Nat}

/-- An effect takes at most so many elements and values and changes nothing else, whether it fails
or not. -/
def Takes (elements values : Nat) (e : Effect α) : Prop :=
  ∀ m, ∃ j ≤ elements, ∃ k ≤ values, e.left m = m.without j k

/-- An effect that fails has taken at most so many elements and values and changed nothing else. -/
def FailsTaking (elements values : Nat) (e : Effect α) : Prop :=
  ∀ m m' cause, e.run m = .error cause m' → ∃ j ≤ elements, ∃ k ≤ values, m' = m.without j k

theorem Takes.failsTaking {e : Effect α} (h : e.Takes elements values) :
    e.FailsTaking elements values := by
  intro m m' cause hfailed
  obtain ⟨j, hj, k, hk, hleft⟩ := h m
  rw [left, hfailed] at hleft
  exact ⟨j, hj, k, hk, hleft⟩

theorem FailsTaking.ofEffect {e : Effect Unit} (h : e.FailsTaking elements values)
    {m m' : Machine} {error : MachineError} (hfailed : Outcome.ofEffect e m = .failed error m') :
    ∃ j ≤ elements, ∃ k ≤ values, m' = m.without j k := by
  unfold Outcome.ofEffect at hfailed
  split at hfailed
  · cases hfailed
  · rename_i hrun
    cases hfailed
    exact h _ _ _ hrun

theorem Takes.left_of_ok {e : Effect α} (h : e.Takes elements values) {m m' : Machine} {a : α}
    (hok : e.run m = .ok a m') : ∃ j ≤ elements, ∃ k ≤ values, m' = m.without j k := by
  obtain ⟨j, hj, k, hk, hleft⟩ := h m
  rw [left, hok] at hleft
  exact ⟨j, hj, k, hk, hleft⟩

namespace Takes

theorem bind {e : Effect α} {f : α → Effect β} (he : e.Takes elements values)
    (hf : ∀ a, (f a).Takes elements' values') :
    (e >>= f).Takes (elements' + elements) (values' + values) := by
  intro m
  rw [left_bind]
  cases hr : e.run m with
  | error cause m' =>
    obtain ⟨j, hj, k, hk, hm'⟩ := he.failsTaking _ _ _ hr
    exact ⟨j, by omega, k, by omega, hm'⟩
  | ok a m₁ =>
    obtain ⟨j, hj, k, hk, rfl⟩ := he.left_of_ok hr
    obtain ⟨j', hj', k', hk', hleft⟩ := hf a (m.without j k)
    exact ⟨j' + j, by omega, k' + k, by omega, by simp only [hleft, Machine.without_without]⟩

theorem pure (a : α) : (Pure.pure a : Effect α).Takes 0 0 := fun _ =>
  ⟨0, Nat.le_refl _, 0, Nat.le_refl _, rfl⟩

theorem throw (e : Failure) : (MonadExcept.throw e : Effect α).Takes 0 0 :=
  fun _ => ⟨0, Nat.le_refl _, 0, Nat.le_refl _, rfl⟩

theorem get : (MonadState.get : Effect Machine).Takes 0 0 := fun _ =>
  ⟨0, Nat.le_refl _, 0, Nat.le_refl _, rfl⟩

theorem lift (x : Except Failure α) : (Effect.lift x).Takes 0 0 := by
  cases x
  · exact throw _
  · exact pure _

theorem current : Effect.current.Takes 0 0 := get.bind fun _ => lift _

theorem currentItems (instruction : String) : (Effect.currentItems instruction).Takes 0 0 := by
  refine current.bind fun node => ?_
  cases node
  case array items => exact pure items
  all_goals exact throw _

theorem takeElement : Effect.takeElement.Takes 1 0 := by
  intro m
  rw [left, run_takeElement]
  cases hpop : m.elements.pop with
  | error e => exact ⟨0, Nat.zero_le 1, 0, Nat.le_refl _, rfl⟩
  | ok popped =>
    refine ⟨1, Nat.le_refl _, 0, Nat.le_refl _, ?_⟩
    rw [Machine.without, ← Stack.eq_drop_one_of_pop hpop]
    rfl

theorem takeValue : Effect.takeValue.Takes 0 1 := by
  intro m
  rw [left, run_takeValue]
  cases hpop : m.values.pop with
  | error e => exact ⟨0, Nat.le_refl _, 0, Nat.zero_le 1, rfl⟩
  | ok popped =>
    refine ⟨0, Nat.le_refl _, 1, Nat.le_refl _, ?_⟩
    rw [Machine.without, ← Stack.eq_drop_one_of_pop hpop]
    rfl

theorem takeWord : Effect.takeWord.Takes 0 1 := by
  refine takeValue.bind fun value => ?_
  cases value.toWord?
  · exact throw _
  · exact pure _

end Takes

theorem failsTaking_modify (f : Machine → Machine) :
    (modify f : Effect Unit).FailsTaking 0 0 := by
  intro m m' cause hfailed
  cases hfailed

namespace FailsTaking

theorem bind {e : Effect α} {f : α → Effect β} (he : e.Takes elements values)
    (hf : ∀ a, (f a).FailsTaking elements' values') :
    (e >>= f).FailsTaking (elements' + elements) (values' + values) := by
  intro m m' cause hfailed
  rw [EStateM.run_bind] at hfailed
  cases hr : e.run m with
  | error cause' m₁ =>
    rw [hr] at hfailed
    cases hfailed
    obtain ⟨j, hj, k, hk, hm'⟩ := he.failsTaking _ _ _ hr
    exact ⟨j, by omega, k, by omega, hm'⟩
  | ok a m₁ =>
    rw [hr] at hfailed
    obtain ⟨j, hj, k, hk, rfl⟩ := he.left_of_ok hr
    obtain ⟨j', hj', k', hk', hm'⟩ := hf a _ _ _ hfailed
    exact ⟨j' + j, by omega, k' + k, by omega, by rw [hm', Machine.without_without]⟩

/-- An effect that does nothing where it fails. -/
theorem of_eq {e : Effect α} (h : ∀ m m' cause, e.run m = .error cause m' → m' = m) :
    e.FailsTaking 0 0 :=
  fun m m' cause hfailed => ⟨0, Nat.le_refl _, 0, Nat.le_refl _, h m m' cause hfailed⟩

theorem giveElement (element : Json) : (Effect.giveElement element).FailsTaking 0 0 :=
  failsTaking_modify _

theorem giveValue (value : Json) : (Effect.giveValue value).FailsTaking 0 0 :=
  failsTaking_modify _

/-- A move or a change of the document that fails has not begun. -/
theorem moveCursor (f : Cursor → Except CursorError Cursor) :
    (Effect.moveCursor f).FailsTaking 0 0 := by
  refine of_eq fun m m' cause hfailed => ?_
  rw [run_moveCursor] at hfailed
  cases h : f m.cursor <;> rw [h] at hfailed <;> cases hfailed
  rfl

theorem write (value : Json) : (Effect.write value).FailsTaking 0 0 := moveCursor _

theorem arrangeElements (f : Stack Json → Except Underflow (Stack Json)) :
    (Effect.arrangeElements f).FailsTaking 0 0 := by
  refine of_eq fun m m' cause hfailed => ?_
  rw [run_arrangeElements] at hfailed
  cases h : f m.elements <;> rw [h] at hfailed <;> cases hfailed
  rfl

theorem arrangeValues (f : Stack Json → Except Underflow (Stack Json)) :
    (Effect.arrangeValues f).FailsTaking 0 0 := by
  refine of_eq fun m m' cause hfailed => ?_
  rw [run_arrangeValues] at hfailed
  cases h : f m.values <;> rw [h] at hfailed <;> cases hfailed
  rfl

/-- An array that would have to be filled up beyond the ceiling is not filled up at all. -/
theorem intoIndex (index : Json) : (Effect.intoIndex index).FailsTaking 0 0 := by
  refine of_eq fun m m' cause hfailed => ?_
  cases hi : index.toIndex? with
  | none =>
    unfold Effect.intoIndex at hfailed
    rw [hi] at hfailed
    cases index <;> cases hfailed <;> rfl
  | some position =>
    rw [run_intoIndex hi] at hfailed
    cases h : m.cursor.intoIndex m.limits.arrayPadding position with
    | ok cursor =>
      rw [h] at hfailed
      cases hfailed
    | error e =>
      rw [h] at hfailed
      cases e <;> cases hfailed <;> rfl

theorem mapWord (f : Int64 → Int64) : (Effect.mapWord f).FailsTaking 0 1 :=
  .bind .takeWord fun _ => giveValue _

theorem combineWords (f : Int64 → Int64 → Int64) : (Effect.combineWords f).FailsTaking 0 2 :=
  .bind .takeWord fun _ => .bind .takeWord fun _ => giveValue _

theorem combineElements (f : Json → Json → Except Failure Json) :
    (Effect.combineElements f).FailsTaking 2 0 :=
  .bind .takeElement fun _ => .bind .takeElement fun _ => .bind (.lift _) fun _ => giveElement _

theorem storeSize : Effect.storeSize.FailsTaking 0 0 := by
  refine .bind .current fun node => ?_
  cases node.length?
  · exact (Takes.throw _).failsTaking
  · exact giveValue _

end FailsTaking

end Effect

/-! ### Instructions -/

namespace Instruction

/-- How many elements an instruction takes. -/
def elementOperands : Instruction → Nat
  | popElement => 1
  | mapElement _ => 1
  | elementToValue => 1
  | mergeArrays => 2
  | concatArrays => 2
  | mergeObjects => 2
  | _ => 0

/-- How many values an instruction takes. -/
def valueOperands : Instruction → Nat
  | popValue => 1
  | increment => 1
  | decrement => 1
  | compare _ => 2
  | add => 2
  | subtract => 2
  | negate => 1
  | valueToElement => 1
  | jumpIfTrue _ => 1
  | jumpIfFalse _ => 1
  | _ => 0

/-- Whether an instruction runs others on the machine itself. A body for the items of an array runs
on machines of their own. -/
def runsHere : Instruction → Bool
  | popCommand => true
  | loopUntil _ => true
  | jumpIfTrue _ => true
  | jumpIfFalse _ => true
  | _ => false

theorem operands_le_two (i : Instruction) : i.elementOperands + i.valueOperands ≤ 2 := by
  cases i <;> simp [elementOperands, valueOperands]

/-- An instruction that runs no others has taken no more than its operands when it fails. -/
theorem perform_failsTaking {i : Instruction} (hi : i.runsHere = false) :
    i.perform.FailsTaking i.elementOperands i.valueOperands := by
  cases i with
  | moveToRoot => exact Effect.failsTaking_modify _
  | moveOut => exact Effect.failsTaking_modify _
  | moveIntoField mode name => exact .moveCursor fun c => c.intoField mode name
  | moveIntoIndex position => exact .bind .get fun _ => .bind (.lift _) .intoIndex
  | pushElement => exact .bind .current fun _ => .giveElement _
  | popElement => exact .bind .takeElement fun _ => .write _
  | storeElement value => exact .write value
  | duplicateElement => exact .arrangeElements _
  | swapElements => exact .arrangeElements _
  | rotateElements => exact .arrangeElements _
  | mapElement table => exact .bind .takeElement fun _ => .giveElement _
  | storeValue operand => exact .bind .get fun _ => .bind (.lift _) fun _ => .giveValue _
  | storeSize => exact .storeSize
  | popValue => exact (Effect.Takes.takeValue.bind fun _ => .pure _).failsTaking
  | increment => exact .mapWord _
  | decrement => exact .mapWord _
  | compare comparison =>
    exact .bind .takeValue fun _ => .bind .takeValue fun _ => .bind (.lift _) fun _ => .giveValue _
  | add => exact .combineWords _
  | subtract => exact .combineWords _
  | negate => exact .mapWord _
  | duplicateValue => exact .arrangeValues _
  | swapValues => exact .arrangeValues _
  | rotateValues => exact .arrangeValues _
  | elementToValue => exact .bind .takeElement fun _ => .giveValue _
  | valueToElement => exact .bind .takeValue fun _ => .giveElement _
  | pushCommand body => exact Effect.failsTaking_modify _
  | reset => exact Effect.failsTaking_modify _
  | mergeArrays => exact .combineElements _
  | concatArrays => exact .combineElements _
  | filterArray predicate => exact .bind (.currentItems _) fun _ => .write _
  | createObject => exact .write Json.emptyObject
  | createArray => exact .write Json.emptyArray
  | delete => exact .moveCursor _
  | mergeObjects => exact .combineElements _
  | popCommand => cases hi
  | loopUntil condition => cases hi
  | jumpIfTrue inner => cases hi
  | jumpIfFalse inner => cases hi
  | mapArray body => exact (Effect.Takes.pure _).failsTaking

end Instruction

namespace Machine

variable {run : Runner} {i : Instruction} {m m' : Machine} {e : MachineError}

/-- The items of an array are replaced all at once, behind the last of them. -/
theorem eq_of_mapArray_failed {body : Program} (h : m.mapArray run body = some (.failed e m')) :
    ∃ log, m' = { m with log } := by
  unfold mapArray at h
  rcases run_currentItems "MapArray" m with ⟨items, hitems⟩ | ⟨cause, hcause⟩
  · rw [hitems] at h
    simp only at h
    split at h
    · cases h
    · rename_i hmapped
      cases h
      exact mapItems_frame hmapped
    · rename_i mapped hmapped
      obtain ⟨log, rfl⟩ := mapItems_frame hmapped
      obtain ⟨j, hj, k, hk, rfl⟩ := (Effect.FailsTaking.write _).ofEffect (Option.some.inj h)
      obtain rfl := Nat.le_zero.1 hj
      obtain rfl := Nat.le_zero.1 hk
      exact ⟨log, rfl⟩
  · rw [hcause] at h
    cases h
    exact ⟨m.log, rfl⟩

/-- **An instruction that fails has taken operands and done nothing else.** Take any machine, any
way of running bodies, and any instruction that runs no others on the machine itself. If it fails,
the document, the cursor, the command stack, the loops and the count of instructions are as they
were, and the stacks of elements and values have lost some of the operands of the instruction, which
are two at most. Only the log may have got longer, by what has been reported of the items of an
array. -/
theorem carryOut_failed_eq (hi : i.runsHere = false)
    (h : m.carryOut run i = some (.failed e m')) :
    ∃ elements ≤ i.elementOperands, ∃ values ≤ i.valueOperands, ∃ log,
      elements + values ≤ 2 ∧
      m' = { m with
        elements := m.elements.drop elements
        values := m.values.drop values
        log } := by
  cases i with
  | popCommand => cases hi
  | loopUntil condition => cases hi
  | jumpIfTrue inner => cases hi
  | jumpIfFalse inner => cases hi
  | mapArray body =>
    obtain ⟨log, rfl⟩ := eq_of_mapArray_failed h
    exact ⟨0, Nat.le_refl 0, 0, Nat.le_refl 0, log, Nat.zero_le 2, rfl⟩
  | _ =>
    obtain ⟨j, hj, k, hk, rfl⟩ :=
      (Instruction.perform_failsTaking hi).ofEffect (Option.some.inj h)
    have htwo := Nat.le_trans (Nat.add_le_add hj hk) (Instruction.operands_le_two _)
    exact ⟨j, hj, k, hk, m.log, htwo, rfl⟩

/-- A body that has put a field into the first item of an array, and fails on the second one, leaves
the array. A position too far behind the end of an array does not fill it up, and no field is put
into a text. A text and a number that cannot be compared are gone, and what is below them stays. -/
theorem carryOut_failed_eq_each :
    (∃ (body : Program) (m : Machine) (e : MachineError) (m' : Machine),
      m.document = .array [.object [], .text "x"] ∧
      m.carryOut (Machine.run 1) (.mapArray body) = some (.failed e m') ∧
      m'.document = m.document ∧ m'.elements = m.elements) ∧
    (∃ (five : Json) (m : Machine) (e : MachineError) (m' : Machine),
      five.toIndex? = some 5 ∧ m.document = .array [] ∧ m.limits.arrayPadding = 3 ∧
      m.carryOut (Machine.run 1) (.moveIntoIndex (.given five)) = some (.failed e m') ∧
      m'.cursor = m.cursor) ∧
    (∃ (m : Machine) (e : MachineError) (m' : Machine),
      m.document = .text "x" ∧
      m.carryOut (Machine.run 1) (.moveIntoField .object "a") = some (.failed e m') ∧
      m'.cursor = m.cursor) ∧
    ∃ (m : Machine) (e : MachineError) (m' : Machine),
      m.values.items = [.text "x", Json.ofNat 1, .null] ∧
      m.carryOut (Machine.run 1) (.compare .lt) = some (.failed e m') ∧
      m'.cursor = m.cursor ∧ ∃ taken ≤ 2, m'.values.items = m.values.items.drop taken := by
  refine ⟨?_, ?_, ?_, ?_⟩
  · obtain ⟨e, m', h⟩ : ∃ e m', carryOut (Machine.run 1)
        (.mapArray [.moveIntoField .leaf "a"])
        (start (.array [.object [], .text "x"]) {} false) = some (.failed e m') := ⟨_, _, rfl⟩
    obtain ⟨elements, helements, _, _, _, _, hleft⟩ := carryOut_failed_eq rfl h
    obtain rfl := Nat.le_zero.1 helements
    exact ⟨_, _, e, m', rfl, h, by rw [hleft]; rfl, by rw [hleft]; rfl⟩
  · obtain ⟨five, hfive⟩ : ∃ five : Json, five.toIndex? = some 5 :=
      ⟨Json.ofNat 5, Json.toIndex?_ofNat (by decide)⟩
    have h : carryOut (Machine.run 1) (.moveIntoIndex (.given five))
        (start (.array []) { arrayPadding := 3 } false) =
          some (.bare (.paddingLimitExceeded 5 0 3)
            (start (.array []) { arrayPadding := 3 } false)) := by
      change some (Outcome.ofEffect (Effect.intoIndex five) _) = _
      rw [Outcome.ofEffect, Effect.run_intoIndex hfive]
      rfl
    obtain ⟨_, _, _, _, _, _, hleft⟩ := carryOut_failed_eq rfl h
    exact ⟨five, _, _, _, hfive, rfl, rfl, h, by rw [hleft]⟩
  · obtain ⟨e, m', h⟩ : ∃ e m', carryOut (Machine.run 1) (.moveIntoField .object "a")
        (start (.text "x") {} false) = some (.failed e m') := ⟨_, _, rfl⟩
    obtain ⟨_, _, _, _, _, _, hleft⟩ := carryOut_failed_eq rfl h
    exact ⟨_, e, m', rfl, h, by rw [hleft]⟩
  · obtain ⟨e, m', h⟩ : ∃ e m', carryOut (Machine.run 1) (.compare .lt)
        { start .null {} false with
          values := ⟨"value", [.text "x", Json.ofNat 1, .null]⟩ } = some (.failed e m') :=
      ⟨_, _, rfl⟩
    obtain ⟨_, _, taken, htaken, _, _, hleft⟩ := carryOut_failed_eq rfl h
    exact ⟨_, e, m', rfl, h, by rw [hleft], taken, htaken, by rw [hleft]; rfl⟩

end Machine

end Reshape
