import Reshape.Machine.View
import Reshape.Program.Comparison

/-!
# Programs

A program is a list of instructions for a machine that walks a document.

* `Operand`, a value given in the program or read from the machine;
* `StopCondition`, when a loop stops;
* `Instruction`, with `name`, `text` and `writesBack`;
* `Program`, and equality of instructions.
-/

namespace Reshape

/-- A value that an instruction takes. -/
inductive Operand where
  /-- A value of the program. -/
  | given (v : Json)
  /-- A field of the current node, null if there is none. -/
  | field (name : String)
  /-- The entry of the value stack at a depth. -/
  | value (depth : Nat)
  /-- The current node. -/
  | current

/-- The text of an operand. -/
def Operand.text : Operand → String
  | given v => v.render
  | field name => "field " ++ name
  | value depth => s!"value[{depth}]"
  | current => "current"

/-- When a loop stops. -/
inductive StopCondition where
  /-- The value at one depth is at least the value at another, or there are too few values. -/
  | reached (counter bound : Nat)
  /-- A predicate holds of the machine. -/
  | custom (predicate : Predicate View)

/-- The text of a stop condition. -/
def StopCondition.text : StopCondition → String
  | reached counter bound => s!"value[{counter}] >= value[{bound}]"
  | custom _ => "custom"

/-- A table from texts to the values that replace them. -/
abbrev Mapping := Entries String Json

/-- One step of a program. -/
inductive Instruction where
  | moveToRoot
  | moveOut
  /-- Move into a field. -/
  | moveIntoField (mode : FieldMode) (name : String)
  /-- Move to a position of an array. -/
  | moveIntoIndex (position : Operand)
  /-- Push the current node onto the element stack. -/
  | pushElement
  /-- Write the top element to the current node. -/
  | popElement
  /-- Write a value to the current node. -/
  | storeElement (value : Json)
  | duplicateElement
  | swapElements
  | rotateElements
  /-- Replace the top element by what a table has for it. -/
  | mapElement (table : Mapping)
  /-- Push onto the value stack. -/
  | storeValue (operand : Operand)
  /-- Push the length of the current node. -/
  | storeSize
  | popValue
  | increment
  | decrement
  | compare (comparison : Comparison)
  | add
  | subtract
  | negate
  | duplicateValue
  | swapValues
  | rotateValues
  /-- Move the top element to the value stack. -/
  | elementToValue
  /-- Move the top value to the element stack. -/
  | valueToElement
  /-- Push a body onto the command stack. -/
  | pushCommand (body : List Instruction)
  /-- Run the body on top of the command stack, and leave it there. -/
  | popCommand
  /-- Run the body on top of the command stack until a condition is met, and take it off. -/
  | loopUntil (condition : StopCondition)
  /-- Take a value, and run an instruction if it counts as true. -/
  | jumpIfTrue (inner : Instruction)
  /-- Take a value, and run an instruction if it counts as false. -/
  | jumpIfFalse (inner : Instruction)
  /-- Move to the root and forget all stacks and loops. -/
  | reset
  /-- Replace two arrays by the first followed by the second. -/
  | mergeArrays
  /-- Replace two arrays by the first followed by the second. -/
  | concatArrays
  /-- Keep the items of the current array of which a predicate holds. -/
  | filterArray (predicate : Predicate Json)
  /-- Replace each item of the current array by what a body makes of it. -/
  | mapArray (body : List Instruction)
  | createObject
  | createArray
  /-- Take the current node out of its parent. -/
  | delete
  /-- Replace two objects by the first with the fields of the second put in. -/
  | mergeObjects

/-- A sequence of instructions. -/
abbrev Program := List Instruction

namespace Instruction

/-- Push a value of the program onto the value stack. -/
def storeGiven (v : Json) : Instruction := storeValue (.given v)

/-- Whether an instruction replaces the current node. -/
def writesBack : Instruction → Bool
  | popElement => true
  | storeElement _ => true
  | createObject => true
  | createArray => true
  | delete => true
  | filterArray _ => true
  | mapArray _ => true
  | _ => false

/-- The name of an instruction. -/
def name : Instruction → String
  | moveToRoot => "MoveToRoot"
  | moveOut => "MoveOut"
  | moveIntoField mode _ => mode.instruction
  | moveIntoIndex _ => "MoveIntoIndex"
  | pushElement => "PushElement"
  | popElement => "PopElement"
  | storeElement _ => "StoreElement"
  | duplicateElement => "DuplicateElement"
  | swapElements => "SwapElements"
  | rotateElements => "RotateElements"
  | mapElement _ => "MapElement"
  | storeValue _ => "StoreValue"
  | storeSize => "StoreSize"
  | popValue => "PopValue"
  | increment => "Increment"
  | decrement => "Decrement"
  | compare _ => "Compare"
  | add => "Add"
  | subtract => "Subtract"
  | negate => "Negate"
  | duplicateValue => "DuplicateValue"
  | swapValues => "SwapValues"
  | rotateValues => "RotateValues"
  | elementToValue => "ElementToValue"
  | valueToElement => "ValueToElement"
  | pushCommand _ => "PushCommand"
  | popCommand => "PopCommand"
  | loopUntil _ => "LoopUntil"
  | jumpIfTrue _ => "JumpIfTrue"
  | jumpIfFalse _ => "JumpIfFalse"
  | reset => "Reset"
  | mergeArrays => "MergeArrays"
  | concatArrays => "ConcatArrays"
  | filterArray _ => "FilterArray"
  | mapArray _ => "MapArray"
  | createObject => "CreateObject"
  | createArray => "CreateArray"
  | delete => "Delete"
  | mergeObjects => "MergeObjects"

/-- A name with what it applies to. -/
def applied (name argument : String) : String := name ++ "(" ++ argument ++ ")"

/-- The text of an instruction. -/
def text : Instruction → String
  | moveIntoField mode field => applied mode.instruction field
  | moveIntoIndex position => applied "MoveIntoIndex" position.text
  | storeElement value => applied "StoreElement" value.render
  | mapElement table => applied "MapElement" s!"{table.length} entries"
  | storeValue operand => applied "StoreValue" operand.text
  | compare comparison => applied "Compare" comparison.symbol
  | pushCommand body => applied "PushCommand" s!"{body.length} instructions"
  | loopUntil condition => applied "LoopUntil" condition.text
  | jumpIfTrue inner => applied "JumpIfTrue" inner.text
  | jumpIfFalse inner => applied "JumpIfFalse" inner.text
  | mapArray body => applied "MapArray" s!"{body.length} instructions"
  | other => other.name

/-- The instructions inside an instruction, if it is of a kind that holds some. -/
def body? : Instruction → Option Program
  | pushCommand body => some body
  | mapArray body => some body
  | jumpIfTrue inner => some [inner]
  | jumpIfFalse inner => some [inner]
  | _ => none

end Instruction

/-! ### Equality -/

/-- Equality of operands. A given value that holds what is no number does not equal itself. -/
instance : BEq Operand where
  beq
    | .given a, .given b => a == b
    | .field a, .field b => a == b
    | .value a, .value b => a == b
    | .current, .current => true
    | _, _ => false

/-- Equality of stop conditions; a predicate is equal to itself only. -/
instance : BEq StopCondition where
  beq
    | .reached c b, .reached c' b' => c == c' && b == b'
    | .custom p, .custom q => p == q
    | _, _ => false

mutual
/-- Equality of instructions. -/
def Instruction.equal : Instruction → Instruction → Bool
  | .moveIntoField v f, .moveIntoField w g => v == w && f == g
  | .moveIntoIndex a, .moveIntoIndex b => a == b
  | .storeElement a, .storeElement b => a == b
  | .mapElement a, .mapElement b => Json.object a == Json.object b
  | .storeValue a, .storeValue b => a == b
  | .compare a, .compare b => a == b
  | .pushCommand a, .pushCommand b => Program.equal a b
  | .loopUntil a, .loopUntil b => a == b
  | .jumpIfTrue a, .jumpIfTrue b => Instruction.equal a b
  | .jumpIfFalse a, .jumpIfFalse b => Instruction.equal a b
  | .filterArray p, .filterArray q => p == q
  | .mapArray a, .mapArray b => Program.equal a b
  | a, b => a.name == b.name

/-- Equality of programs. -/
def Program.equal : List Instruction → List Instruction → Bool
  | [], [] => true
  | a :: as, b :: bs => Instruction.equal a b && Program.equal as bs
  | _, _ => false
end

instance : BEq Instruction := ⟨Instruction.equal⟩

end Reshape
