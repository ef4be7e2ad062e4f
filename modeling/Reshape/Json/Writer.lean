import Reshape.Json.Basic
import Reshape.Number.Text
import Reshape.Text.Quoted

/-!
# Writing documents

The text of a value for reading, which is JSON: on one line, with few escapes, and with numbers that
never have an exponent.

* `compact`, the characters of the text;
* `Json.render`.
-/

namespace Reshape.Json

/-- A text between quotes. -/
def quoted (s : String) : List Char := Text.quoted Text.Letters.plain s

mutual
/-- A value without blanks. -/
def compact : Json → List Char
  | .null => ['n', 'u', 'l', 'l']
  | .bool true => ['t', 'r', 'u', 'e']
  | .bool false => ['f', 'a', 'l', 's', 'e']
  | .number n => n.plainText
  | .text s => quoted s
  | .array [] => ['[', ']']
  | .array (item :: rest) => '[' :: (compact item ++ compactItems rest)
  | .object [] => ['\x7b', '\x7d']
  | .object ((key, value) :: rest) =>
    '\x7b' :: (quoted key ++ ':' :: (compact value ++ compactFields rest))

/-- The further items of an array and its end. -/
def compactItems : List Json → List Char
  | [] => [']']
  | item :: rest => ',' :: (compact item ++ compactItems rest)

/-- The further fields of an object and its end. -/
def compactFields : List (String × Json) → List Char
  | [] => ['\x7d']
  | (key, value) :: rest => ',' :: (quoted key ++ ':' :: (compact value ++ compactFields rest))
end

/-- The text of a value for reading. -/
def render (value : Json) : String := String.ofList (compact value)

end Reshape.Json
