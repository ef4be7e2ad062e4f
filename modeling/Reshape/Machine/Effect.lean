import Reshape.Machine.State

/-!
# Single instructions

What each instruction does that runs no other instructions. An instruction that fails may have
taken its operands off the stacks, and leaves everything else as it was.

* `Effect`, a change of a machine that may fail, and that keeps the machine where it does;
* `joinArrays`, `joinObjects`, `mapText`, `compareValues`, on values;
* `Instruction.perform`.
-/

namespace Reshape

/-- A change of a machine that may fail. -/
abbrev Effect := EStateM Failure Machine

/-! ### On values -/

/-- One array behind another. -/
def joinArrays (first second : Json) : Except Failure Json :=
  match first, second with
  | .array a, .array b => .ok (.array (a ++ b))
  | .array _, other => .error (.typeMismatch .array other.kind)
  | other, _ => .error (.typeMismatch .array other.kind)

/-- The fields of one object put into another. -/
def joinObjects (first second : Json) : Except Failure Json :=
  match first, second with
  | .object a, .object b => .ok (.object (Entries.merge a b))
  | .object _, other => .error (.typeMismatch .object other.kind)
  | other, _ => .error (.typeMismatch .object other.kind)

/-- What a table has for a text; every other value, and a text that is not in the table, stays. -/
def mapText (table : Mapping) (value : Json) : Json :=
  match value with
  | .text key => (table.get? key).getD value
  | other => other

/-- The result of a comparison. Equality is of any values, by their contents whether or not they are
shared; order is of numbers only. -/
def compareValues (comparison : Comparison) (left right : Json) : Except Failure Bool :=
  match comparison with
  | .eq => .ok (left == right)
  | .ne => .ok (!(left == right))
  | ordering =>
    match left, right with
    | .number a, .number b => .ok (ordering.holds a b)
    | .number _, other => .error (.typeMismatch .number other.kind)
    | other, _ => .error (.typeMismatch .number other.kind)

namespace Effect

/-- Fail, or go on with a result. -/
def lift {α : Type} : Except Failure α → Effect α
  | .ok a => pure a
  | .error e => throw e

/-- Change the cursor. -/
def moveCursor (f : Cursor → Except CursorError Cursor) : Effect Unit := do
  let m ← get
  let cursor ← lift ((f m.cursor).mapError Failure.navigation)
  set { m with cursor }

/-- The current node. -/
def current : Effect Json := do
  lift ((← get).cursor.current.mapError Failure.navigation)

/-- Put a value in place of the current node. -/
def write (value : Json) : Effect Unit := moveCursor (·.write value)

/-- Take the top element. -/
def takeElement : Effect Json := do
  let m ← get
  let (element, elements) ← lift (m.elements.pop.mapError Failure.stackUnderflow)
  set { m with elements }
  return element

/-- Take the top value. -/
def takeValue : Effect Json := do
  let m ← get
  let (value, values) ← lift (m.values.pop.mapError Failure.stackUnderflow)
  set { m with values }
  return value

/-- Push an element. -/
def giveElement (element : Json) : Effect Unit :=
  modify fun m => { m with elements := m.elements.push element }

/-- Push a value. -/
def giveValue (value : Json) : Effect Unit :=
  modify fun m => { m with values := m.values.push value }

/-- Rearrange the element stack. -/
def arrangeElements (f : Stack Json → Except Underflow (Stack Json)) : Effect Unit := do
  let m ← get
  let elements ← lift ((f m.elements).mapError Failure.stackUnderflow)
  set { m with elements }

/-- Rearrange the value stack. -/
def arrangeValues (f : Stack Json → Except Underflow (Stack Json)) : Effect Unit := do
  let m ← get
  let values ← lift ((f m.values).mapError Failure.stackUnderflow)
  set { m with values }

/-- Take the top value as a word. -/
def takeWord : Effect Int64 := do
  let value ← takeValue
  match value.toWord? with
  | some word => return word
  | none => throw (.typeMismatch .number value.kind)

/-- Replace the top value, a word, by a function of it. Words wrap around. -/
def mapWord (f : Int64 → Int64) : Effect Unit := do
  let word ← takeWord
  giveValue (Json.ofWord (f word))

/-- Replace the two top values, words, by a function of them. Words wrap around. -/
def combineWords (f : Int64 → Int64 → Int64) : Effect Unit := do
  let right ← takeWord
  let left ← takeWord
  giveValue (Json.ofWord (f left right))

/-- Replace the two top elements by a function of them. -/
def combineElements (f : Json → Json → Except Failure Json) : Effect Unit := do
  let second ← takeElement
  let first ← takeElement
  giveElement (← lift (f first second))

/-- Move to a position of the current array. -/
def intoIndex (index : Json) : Effect Unit := do
  match index.toIndex? with
  | none =>
    match index with
    | .number _ => throw (.navigation (.negativeIndex index))
    | other => throw (.typeMismatch .number other.kind)
  | some position =>
    let m ← get
    match m.cursor.intoIndex m.limits.arrayPadding position with
    | .ok cursor => set { m with cursor }
    | .error (.cursor e) => throw (.navigation e)
    | .error (.padding position length limit) =>
      throw (.paddingLimitExceeded position length limit)

/-- The items of the current array. -/
def currentItems (instruction : String) : Effect (List Json) := do
  let node ← current
  match node with
  | .array items => return items
  | other => throw (.navigation (.requires instruction "an array" other.kind))

/-- Push the length of the current container. -/
def storeSize : Effect Unit := do
  let node ← current
  match node.length? with
  | some length => giveValue (Json.ofNat length)
  | none => throw (.navigation (.requires "StoreSize" "an object or array" node.kind))

/-- Move to the root and forget all stacks and loops. -/
def reset : Effect Unit :=
  modify fun m =>
    { m with
      cursor := m.cursor.toRoot
      elements := m.elements.clear
      values := m.values.clear
      commands := m.commands.clear
      loopLevel := 0
      loopCounters := [] }

end Effect

open Effect in
/-- What an instruction does. The ones that run others do nothing of themselves. -/
def Instruction.perform : Instruction → Effect Unit
  | moveToRoot => modify fun m => { m with cursor := m.cursor.toRoot }
  | moveOut => modify fun m => { m with cursor := m.cursor.moveOut }
  | moveIntoField mode name => moveCursor (·.intoField mode name)
  | moveIntoIndex position => do
    intoIndex (← lift (position.resolve (← get)))
  | pushElement => do giveElement (← current)
  | popElement => do write (← takeElement)
  | storeElement value => write value
  | duplicateElement => arrangeElements Stack.duplicate
  | swapElements => arrangeElements Stack.swap
  | rotateElements => arrangeElements Stack.rotate
  | mapElement table => do giveElement (mapText table (← takeElement))
  | storeValue operand => do giveValue (← lift (operand.resolve (← get)))
  | storeSize => Effect.storeSize
  | popValue => do let _ ← takeValue
  | increment => mapWord (· + 1)
  | decrement => mapWord (· - 1)
  | compare comparison => do
    let right ← takeValue
    let left ← takeValue
    giveValue (.bool (← lift (compareValues comparison left right)))
  | add => combineWords (· + ·)
  | subtract => combineWords (· - ·)
  | negate => mapWord (- ·)
  | duplicateValue => arrangeValues Stack.duplicate
  | swapValues => arrangeValues Stack.swap
  | rotateValues => arrangeValues Stack.rotate
  | elementToValue => do giveValue (← takeElement)
  | valueToElement => do giveElement (← takeValue)
  | pushCommand body => modify fun m => { m with commands := m.commands.push body }
  | reset => Effect.reset
  | mergeArrays => combineElements joinArrays
  | concatArrays => combineElements joinArrays
  | filterArray predicate => do
    write (.array ((← currentItems "FilterArray").filter predicate.holds))
  | createObject => write Json.emptyObject
  | createArray => write Json.emptyArray
  | delete => moveCursor Cursor.delete
  | mergeObjects => combineElements joinObjects
  | popCommand => pure ()
  | loopUntil _ => pure ()
  | jumpIfTrue _ => pure ()
  | jumpIfFalse _ => pure ()
  | mapArray _ => pure ()

end Reshape
