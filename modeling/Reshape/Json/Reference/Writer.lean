import Reshape.Json.Reference.Reader
import Reshape.Number.Text
import Reshape.Text.Quoted

/-!
# The reference codec

The reference codec runs where a codec is needed. It writes data on one line or on many, with every
short escape, and numbers that are no integers with a point or an exponent.

* `Number.realText`, the text of a number that is not given as an integer;
* `Datum.Layout`, and `Datum.toText`, the text of a datum in a layout;
* `Codec.reference`.
-/

namespace Reshape

namespace Number

/-- One digit before the point, and an exponent with its sign. -/
def Figures.scientific (f : Figures) : List Char :=
  let exponent := f.point - 1
  let lead := match f.digits with
    | d :: e :: more => d :: '.' :: e :: more
    | few => few
  let sign := if exponent < 0 then '-' else '+'
  lead ++ 'e' :: sign :: Nat.toDigits 10 exponent.natAbs

/-- The text of a number that is no integer in its format. Exponents from -5 to 15 are written out,
with at least one digit behind the point; others are written as exponents. What is not finite is
`null`. -/
def realText : Number → List Char
  | finite negative units _ =>
    let f := figures .toEven units
    withSign negative <|
      if -5 ≤ f.point - 1 ∧ f.point - 1 ≤ 15 then f.positional ['.', '0'] else f.scientific
  | _ => ['n', 'u', 'l', 'l']

example : (ofDecimal false ⟨1, -7⟩).realText = "1e-7".toList := by decide +kernel

example : (ofDecimal true ⟨15, 299⟩).realText = "-1.5e+300".toList := by decide +kernel

example : (ofDecimal false ⟨50000762939453125, -17⟩).realText = "0.5000076293945312".toList := by
  decide +kernel

end Number

namespace Datum

/-- A text between quotes. -/
def quoted (s : String) : List Char := Text.quoted Text.Letters.full s

/-- A scalar. -/
def scalarText : Datum → List Char
  | bool true => ['t', 'r', 'u', 'e']
  | bool false => ['f', 'a', 'l', 's', 'e']
  | integer v => Text.integerText v
  | real n => n.realText
  | text s => quoted s
  | _ => ['n', 'u', 'l', 'l']

/-- How a text is spread over lines. -/
structure Layout where
  /-- What starts a line at a depth. -/
  line : Nat → List Char
  /-- What stands between a colon and the value behind it. -/
  space : List Char

/-- Everything on one line, without any blanks. -/
def Layout.oneLine : Layout := ⟨fun _ => [], []⟩

/-- One item or field a line, with two blanks for each level. -/
def Layout.manyLines : Layout := ⟨fun depth => '\n' :: List.replicate (2 * depth) ' ', [' ']⟩

mutual
/-- A datum at a depth. Empty containers stay on one line. -/
def chars (layout : Layout) (depth : Nat) : Datum → List Char
  | array [] => ['[', ']']
  | array (item :: rest) =>
    '[' :: (layout.line (depth + 1) ++ (chars layout (depth + 1) item ++
      itemChars layout depth rest))
  | object [] => ['\x7b', '\x7d']
  | object ((key, value) :: rest) =>
    '\x7b' :: (layout.line (depth + 1) ++ (quoted key ++ ':' :: (layout.space ++
      (chars layout (depth + 1) value ++ fieldChars layout depth rest))))
  | scalar => scalar.scalarText

/-- The further items of an array at a depth, and its end. -/
def itemChars (layout : Layout) (depth : Nat) : List Datum → List Char
  | [] => layout.line depth ++ [']']
  | item :: rest =>
    ',' :: (layout.line (depth + 1) ++ (chars layout (depth + 1) item ++
      itemChars layout depth rest))

/-- The further fields of an object at a depth, and its end. -/
def fieldChars (layout : Layout) (depth : Nat) : List (String × Datum) → List Char
  | [] => layout.line depth ++ ['\x7d']
  | (key, value) :: rest =>
    ',' :: (layout.line (depth + 1) ++ (quoted key ++ ':' :: (layout.space ++
      (chars layout (depth + 1) value ++ fieldChars layout depth rest))))
end

/-- A datum as a text. -/
def toText (layout : Layout) (d : Datum) : String := String.ofList (d.chars layout 0)

end Datum

/-- The reference codec. -/
def Codec.reference : Codec where
  read := Json.readDatum
  write d := some (d.toText .oneLine)
  writePretty d := some (d.toText .manyLines)

end Reshape
