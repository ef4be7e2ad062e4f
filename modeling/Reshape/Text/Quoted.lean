/-!
# Quoted text

A text between quotes, in which some characters are written as escapes: a backslash and a letter
for those that have a letter, `\u00xx` for the other characters below U+0020, and every other
character as itself. The two alphabets of letters differ in whether backspace and form feed have
one.

* `Letters`, an alphabet of escapes; `Letters.plain` and `Letters.full`;
* `escape`, `quoted`.
-/

namespace Reshape.Text

/-- The letter that stands for a character behind a backslash, for those that have one. -/
abbrev Letters := Char → Option Char

/-- Quote, backslash, line feed, carriage return and tab have a letter. -/
def Letters.plain : Letters
  | '"' => some '"'
  | '\\' => some '\\'
  | '\n' => some 'n'
  | '\r' => some 'r'
  | '\t' => some 't'
  | _ => none

/-- Backspace and form feed have a letter too. -/
def Letters.full : Letters
  | '\x08' => some 'b'
  | '\x0c' => some 'f'
  | c => Letters.plain c

/-- A character inside quotes. -/
def escape (letters : Letters) (c : Char) : List Char :=
  match letters c with
  | some letter => ['\\', letter]
  | none =>
    if c.toNat < 0x20 then
      ['\\', 'u', '0', '0', Nat.digitChar (c.toNat / 16), Nat.digitChar (c.toNat % 16)]
    else [c]

/-- A text between quotes. -/
def quoted (letters : Letters) (text : String) : List Char :=
  '"' :: (text.toList.flatMap (escape letters) ++ ['"'])

end Reshape.Text
