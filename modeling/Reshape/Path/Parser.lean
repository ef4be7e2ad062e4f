import Reshape.Path.Component
import Reshape.Text.Blank

/-!
# Reading path expressions

An expression may start with `$`, and with one dot or with the two dots of a descent. The dots
outside brackets cut the rest into segments, and each segment that is not empty is a component.
Blanks are trimmed inside brackets and nowhere else.

* `Path.SyntaxError` and its message;
* `Path.segments`, the cutting;
* `Path.segment`, the component of one segment;
* `Path.parse`.
-/

namespace Reshape.Path

/-- Why a text is no path expression. -/
inductive SyntaxError where
  /-- The expression, or the offset path in brackets, is blank. -/
  | empty
  /-- The brackets of a segment do not match. -/
  | invalidArrayNotation (segment : String)
  /-- The ends of a range are not two words. -/
  | invalidRange (segment : String)
  /-- An index is no word. -/
  | invalidNumber (text : String)
  deriving DecidableEq

/-- The message of a syntax error. -/
def SyntaxError.message : SyntaxError → String
  | .empty => "Path expression is empty"
  | .invalidArrayNotation segment => "Invalid array notation: " ++ segment
  | .invalidRange segment => "Invalid range: " ++ segment
  | .invalidNumber text => "Invalid number: " ++ text

/-! ### Cutting -/

/-- The text up to the first `sep` and the text behind it. -/
def splitFirst? (sep : Char) : List Char → Option (List Char × List Char)
  | [] => none
  | c :: rest =>
    if c = sep then some ([], rest)
    else (splitFirst? sep rest).map fun (before, after) => (c :: before, after)

/-- The parts of a text between the `sep`s in it. -/
def splitAll (sep : Char) : List Char → List (List Char)
  | [] => [[]]
  | c :: rest =>
    if c = sep then [] :: splitAll sep rest
    else
      match splitAll sep rest with
      | part :: parts => (c :: part) :: parts
      | [] => [[c]]

/-- The parts of a text between the dots outside brackets. -/
def segmentsFrom (inBracket : Bool) : List Char → List (List Char)
  | [] => [[]]
  | c :: rest =>
    if c = '.' ∧ inBracket = false then [] :: segmentsFrom inBracket rest
    else
      let inside := if c = '[' then true else if c = ']' then false else inBracket
      match segmentsFrom inside rest with
      | segment :: segments => (c :: segment) :: segments
      | [] => [[c]]

/-- The segments of an expression behind its root. -/
def segments (cs : List Char) : List (List Char) :=
  (segmentsFrom false cs).filter fun segment => !segment.isEmpty

/-- A text without the root sign in front, if there is one. -/
def dropRoot : List Char → List Char
  | '$' :: rest => rest
  | cs => cs

/-- Whether an expression starts with a descent, and the text behind its first dots. -/
def splitDescent : List Char → Bool × List Char
  | '.' :: '.' :: rest => (true, rest)
  | '.' :: rest => (false, rest)
  | cs => (false, cs)

/-! ### Segments -/

/-- An index in brackets. -/
def index (cs : List Char) : Except SyntaxError Int64 :=
  match Text.readWord? cs with
  | some word => .ok word
  | none => .error (.invalidNumber (String.ofList cs))

/-- The component of a field and the trimmed text of its brackets. An offset path has to be an
expression too, which `check` decides. -/
def bracket (check : List Char → Except SyntaxError Unit) (field : String) (segment : List Char)
    (inside : List Char) : Except SyntaxError Component :=
  match inside with
  | ['*'] => .ok (.arrayAll field)
  | '*' :: '+' :: offset =>
    match check offset with
    | .ok _ => .ok (.arrayAllOffset field (String.ofList offset))
    | .error e => .error e
  | _ =>
    match splitFirst? ':' inside with
    | some (first, last) =>
      match Text.readWord? (Text.trim first), Text.readWord? (Text.trim last) with
      | some first, some last => .ok (.arrayRange field first last)
      | _, _ => .error (.invalidRange (String.ofList segment))
    | none =>
      if inside.contains ',' then
        ((splitAll ',' inside).mapM fun part => index (Text.trim part)).map
          (Component.arrayValues field)
      else (index inside).map (Component.arrayIndex field)

/-- The component of a segment. A segment with a bracket has to have an opening one and to end with
a closing one. -/
def segment (check : List Char → Except SyntaxError Unit) (cs : List Char) :
    Except SyntaxError Component :=
  if cs = ['*'] then .ok .wildcard
  else if ¬ cs.contains '[' ∧ ¬ cs.contains ']' then .ok (.field (String.ofList cs))
  else
    match splitFirst? '[' cs with
    | some (field, inside) =>
      if inside.getLast? = some ']' then
        bracket check (String.ofList field) cs (Text.trim inside.dropLast)
      else .error (.invalidArrayNotation (String.ofList cs))
    | none => .error (.invalidArrayNotation (String.ofList cs))

/-! ### Expressions -/

/-- The components of an expression whose offset paths nest less than `depth` deep. -/
def parseWithin : Nat → List Char → Except SyntaxError (List Component)
  | 0, _ => .error .empty
  | depth + 1, cs =>
    if cs.all Text.isBlank then .error .empty
    else
      let (descent, rest) := splitDescent (dropRoot cs)
      let check := fun offset => (parseWithin depth offset).map fun _ => ()
      ((segments rest).mapM (segment check)).map fun components =>
        if descent then .recursiveDescent :: components else components

/-- The components of an expression. An offset path is shorter than the expression around it, so
the length of the text bounds the nesting. -/
def parse (text : String) : Except SyntaxError (List Component) :=
  parseWithin (text.length + 1) text.toList

end Reshape.Path
