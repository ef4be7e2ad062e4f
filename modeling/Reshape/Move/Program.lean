import Reshape.Move.Route
import Reshape.Move.Strategy
import Reshape.Path.Parser

/-!
# The program of a move

A move copies what is at a source path to a target path. Its program starts with a reset, so that
it can be run on any document and after any other program.

* `Move`, and `CompileError`, why a move has no program;
* `copyOne`, `copyToEach`, `copyItems`, one program for each strategy;
* `Move.strategy?`, `Move.program` and `Move.report`;
* `Compiler`, which is given its table first and its paths last.
-/

namespace Reshape

/-- The side of a move that a path is on. -/
inductive Side where
  | source
  | target
  deriving DecidableEq

/-- The name of a side. -/
def Side.name : Side → String
  | source => "source"
  | target => "target"

/-- Why there is no program for a move. -/
inductive CompileError where
  | path (e : Path.SyntaxError)
  /-- A path needs an array pattern and has none. -/
  | missingArrayPattern (side : Side) (path : String)
  | unsupportedComponent (e : Blocked)
  deriving DecidableEq

/-- The message of a compile error. -/
def CompileError.message : CompileError → String
  | path e => e.message
  | missingArrayPattern side text => "No array pattern in " ++ side.name ++ " path " ++ text
  | unsupportedComponent e => e.message

/-- A source path, a target path, and a table for the texts on the way, if there is one. -/
structure Move where
  source : String
  target : String
  mapping : Option Mapping

namespace Move

/-! ### Parts of programs -/

/-- The route to the end of a path, or the compile error that there is none. -/
def route (mode : FieldMode) (path : List Component) : Except CompileError Route :=
  (Route.to? mode path).mapError CompileError.unsupportedComponent

/-- A path around its array pattern, or the compile error that it has none. -/
def arrayPath (side : Side) (text : String) (path : List Component) :
    Except CompileError ArrayPath :=
  (ArrayPath.ofComponents? path).mapError fun
    | .missing => .missingArrayPattern side text
    | .blocked e => .unsupportedComponent e

/-- Move from the root along a route. -/
def fromRoot (route : Route) : Program := .moveToRoot :: route.moves

/-- Take the current node as an element, and replace it by what the table has for it. -/
def pickUp (mapping : Option Mapping) : Program :=
  .pushElement :: mapping.toList.map .mapElement

/-- Push the length of the node at an offset path. -/
def measure (offset : String) : Except CompileError Program := do
  let path ← (Path.parse offset).mapError CompileError.path
  let route ← (Route.toOffset? path).mapError CompileError.unsupportedComponent
  return fromRoot route ++ [.storeSize]

/-- Run a body until the counter on top of the value stack reaches the bound below it. -/
def countingLoop (body : Program) : Program :=
  [.pushCommand body, .loopUntil (.reached 0 1)]

/-! ### One program for each strategy -/

/-- Copy one node to one place. -/
def copyOne (mapping : Option Mapping) (source target : List Component) :
    Except CompileError Program := do
  let toSource ← route .object source
  let toTarget ← route .leaf target
  return fromRoot toSource ++ pickUp mapping ++ [.moveOut] ++
    fromRoot toTarget ++ [.popElement, .moveOut]

/-- The array that is written where there is no item to copy to. -/
def singleItem : Json := .array [Json.emptyObject]

/-- The body of the loop that copies an element to each item: the counter is the position of the
item. -/
def copyToItem (toPlace : Route) : Program :=
  .moveIntoIndex (.value 0) :: toPlace.moves ++ [.duplicateElement, .popElement] ++
    List.replicate (toPlace.depth + 1) .moveOut ++ [.increment]

/-- Copy one node to each item of an array, and to one item at least. -/
def copyToEach (mapping : Option Mapping) (source target : List Component) (targetText : String) :
    Except CompileError Program := do
  let target ← arrayPath .target targetText target
  let toSource ← route .object source
  let toParent ← route .object target.before
  let toPlace ← route .object target.after
  let toArray := toParent.append (Route.intoArray target.field)
  return fromRoot toSource ++ pickUp mapping ++ fromRoot toArray ++
    [.storeSize, .storeGiven (Json.ofInt 1), .compare .ge, .jumpIfFalse (.storeElement singleItem),
      .storeSize, .storeGiven (Json.ofInt 0)] ++
    countingLoop (copyToItem toPlace)

/-- Push the position of the first item to be written. -/
def firstPosition : Component → Except CompileError Program
  | .arrayAllOffset _ offset => measure offset
  | _ => .ok [.storeGiven (Json.ofInt 0)]

/-- The body of the loop that copies items. The value stack holds the first position to write, the
length of the source array, and the counter on top, which is the position of the item to copy. -/
def copyItem (mapping : Option Mapping) (toSource fromItem toTarget toPlace : Route) : Program :=
  fromRoot toSource ++ .moveIntoIndex (.value 0) :: fromItem.moves ++ pickUp mapping ++
    fromRoot toTarget ++
    [.storeValue (.value 0), .storeValue (.value 3), .add, .moveIntoIndex (.value 0), .popValue] ++
    toPlace.moves ++ [.popElement, .moveOut, .moveOut, .increment]

/-- Copy the items of one array to the items of another. -/
def copyItems (mapping : Option Mapping) (source target : List Component)
    (sourceText targetText : String) : Except CompileError Program := do
  let source ← arrayPath .source sourceText source
  let target ← arrayPath .target targetText target
  if source.array matches .arrayAllOffset .. then
    throw (.unsupportedComponent ⟨source.array, .sourceOffset⟩)
  let first ← firstPosition target.array
  let toSourceParent ← route .object source.before
  let fromItem ← route .leaf source.after
  let toTargetParent ← route .object target.before
  let toPlace ← route .leaf target.after
  let toSource := toSourceParent.append (Route.intoArray source.field)
  let toTarget := toTargetParent.append (Route.intoArray target.field)
  return first ++ fromRoot toSource ++ [.storeSize, .storeGiven (Json.ofInt 0)] ++
    countingLoop (copyItem mapping toSource fromItem toTarget toPlace)

/-! ### Moves -/

/-- The components of both paths. -/
def paths (move : Move) : Except Path.SyntaxError (List Component × List Component) := do
  let source ← Path.parse move.source
  let target ← Path.parse move.target
  return (source, target)

/-- The strategy of a move, if both of its paths are expressions. -/
def strategy? (move : Move) : Option Strategy :=
  match move.paths with
  | .ok (source, target) => some (Strategy.select source target)
  | .error _ => none

/-- The program of a move behind its reset. -/
def copy (move : Move) (source target : List Component) : Except CompileError Program :=
  match Strategy.select source target with
  | .replication => copyToEach move.mapping source target move.target
  | .patternMove => copyItems move.mapping source target move.source move.target
  | .simpleMove => copyOne move.mapping source target

/-- The program of a move. -/
def program (move : Move) : Except CompileError Program := do
  let (source, target) ← move.paths.mapError CompileError.path
  return .reset :: (← move.copy source target)

/-- What is reported when the program of a move has been made. -/
def report (move : Move) : Option String :=
  match move.strategy?, move.program with
  | some strategy, .ok program =>
    let source := move.source
    let target := move.target
    let strategy := strategy.name
    let instructions := program.length
    let mapped := move.mapping.isSome
    some <| s!"DEBUG compiled path pair source={source} target={target} strategy={strategy} " ++
      s!"instructions={instructions} mapped={mapped}"
  | _, _ => none

end Move

/-- A maker of programs, with a table for the texts on the way, if there is one. -/
structure Compiler where
  mapping : Option Mapping := none

namespace Compiler

/-- The maker with a table. -/
def withMapping (compiler : Compiler) (mapping : Mapping) : Compiler :=
  { compiler with mapping := some mapping }

/-- The program for two paths. -/
def compile (compiler : Compiler) (source target : String) : Except CompileError Program :=
  Move.program ⟨source, target, compiler.mapping⟩

end Compiler

end Reshape
