import Reshape.Json.Grammar

/-!
# The trees of JSON texts

The reference codec reads a JSON text in two stages. This module is the first one: the grammar gives
the tree of the text, in which numbers are numerals, texts are characters and `\u` escapes, and
objects are lists of fields. What the leaves mean, and what can be read at all, is left to the
second stage.

* `Numeral`, `Piece` and `Json.Tree`;
* `numeral?`, `pieces?` and `tree?`, which read a lexeme or a tree off the front of a text;
* `Json.Tree.ofText?`, the tree of a whole text.
-/

namespace Reshape.Json

/-- A number as it is written. -/
structure Numeral where
  negative : Bool
  whole : List Char
  fraction : Option (List Char)
  exponent : Option (Bool × List Char)
  deriving DecidableEq

/-- A character of a quoted text, or the code unit of a `\u` escape. -/
inductive Piece where
  | plain (c : Char)
  | unit (code : Nat)
  deriving DecidableEq

/-- A JSON text as the grammar reads it. -/
inductive Tree where
  | null
  | bool (value : Bool)
  | number (numeral : Numeral)
  | text (pieces : List Piece)
  | array (items : List Tree)
  | object (fields : List (List Piece × Tree))

namespace Tree

open Grammar

/-- A text without the blanks in front. -/
def skipBlanks (cs : List Char) : List Char := cs.dropWhile isBlank

/-! ### Numerals -/

/-- One or more digits. -/
def digits? (cs : List Char) : Option (List Char × List Char) :=
  match cs.takeWhile Char.isDigit with
  | [] => none
  | digits => some (digits, cs.dropWhile Char.isDigit)

/-- The digits before the point: a single zero, or digits that do not start with one. -/
def whole? : List Char → Option (List Char × List Char)
  | '0' :: rest =>
    match rest with
    | c :: _ => if c.isDigit then none else some (['0'], rest)
    | [] => some (['0'], rest)
  | cs => digits? cs

/-- A point and the digits behind it, if there is a point. -/
def fraction? : List Char → Option (Option (List Char) × List Char)
  | '.' :: cs => (digits? cs).map fun (digits, rest) => (some digits, rest)
  | cs => some (none, cs)

/-- The digits of an exponent with the sign before them. -/
def signedDigits? : List Char → Option ((Bool × List Char) × List Char)
  | '+' :: cs => (digits? cs).map fun (digits, rest) => ((false, digits), rest)
  | '-' :: cs => (digits? cs).map fun (digits, rest) => ((true, digits), rest)
  | cs => (digits? cs).map fun (digits, rest) => ((false, digits), rest)

/-- An exponent, if there is one. -/
def exponent? : List Char → Option (Option (Bool × List Char) × List Char)
  | 'e' :: cs => (signedDigits? cs).map fun (exponent, rest) => (some exponent, rest)
  | 'E' :: cs => (signedDigits? cs).map fun (exponent, rest) => (some exponent, rest)
  | cs => some (none, cs)

/-- A numeral without its sign. -/
def unsigned? (negative : Bool) (cs : List Char) : Option (Numeral × List Char) := do
  let (whole, cs) ← whole? cs
  let (fraction, cs) ← fraction? cs
  let (exponent, cs) ← exponent? cs
  return (⟨negative, whole, fraction, exponent⟩, cs)

/-- A numeral. -/
def numeral? : List Char → Option (Numeral × List Char)
  | '-' :: cs => unsigned? true cs
  | cs => unsigned? false cs

/-! ### Quoted texts -/

/-- The pieces of a quoted text up to the closing quote. Characters below U+0020 have to be
escaped. -/
def pieces? : List Char → Option (List Piece × List Char)
  | [] => none
  | '"' :: rest => some ([], rest)
  | '\\' :: 'u' :: a :: b :: c :: d :: rest => do
    let code ← unit? a b c d
    let (pieces, rest) ← pieces? rest
    return (.unit code :: pieces, rest)
  | '\\' :: letter :: rest => do
    let c ← escaped? letter
    let (pieces, rest) ← pieces? rest
    return (.plain c :: pieces, rest)
  | c :: rest =>
    if c = '\\' ∨ c.toNat < 0x20 then none
    else (pieces? rest).map fun (pieces, rest) => (.plain c :: pieces, rest)

/-! ### Trees -/

mutual
/-- A tree with blanks before it. Each level of nesting takes two of `fuel`. -/
def tree? : Nat → List Char → Option (Tree × List Char)
  | 0, _ => none
  | fuel + 1, cs =>
    match skipBlanks cs with
    | '"' :: rest => (pieces? rest).map fun (pieces, rest) => (.text pieces, rest)
    | '[' :: rest =>
      match skipBlanks rest with
      | ']' :: rest => some (.array [], rest)
      | rest => (items? fuel rest).map fun (items, rest) => (.array items, rest)
    | '\x7b' :: rest =>
      match skipBlanks rest with
      | '\x7d' :: rest => some (.object [], rest)
      | rest => (fields? fuel rest).map fun (fields, rest) => (.object fields, rest)
    | 'n' :: 'u' :: 'l' :: 'l' :: rest => some (.null, rest)
    | 't' :: 'r' :: 'u' :: 'e' :: rest => some (.bool true, rest)
    | 'f' :: 'a' :: 'l' :: 's' :: 'e' :: rest => some (.bool false, rest)
    | rest => (numeral? rest).map fun (numeral, rest) => (.number numeral, rest)

/-- One or more items and the end of their array. -/
def items? : Nat → List Char → Option (List Tree × List Char)
  | 0, _ => none
  | fuel + 1, cs => do
    let (item, cs) ← tree? fuel cs
    match skipBlanks cs with
    | ',' :: rest =>
      let (items, rest) ← items? fuel rest
      return (item :: items, rest)
    | ']' :: rest => return ([item], rest)
    | _ => none

/-- One or more fields and the end of their object. -/
def fields? : Nat → List Char → Option (List (List Piece × Tree) × List Char)
  | 0, _ => none
  | fuel + 1, cs =>
    match skipBlanks cs with
    | '"' :: rest => do
      let (key, cs) ← pieces? rest
      match skipBlanks cs with
      | ':' :: rest =>
        let (value, cs) ← tree? fuel rest
        match skipBlanks cs with
        | ',' :: rest =>
          let (fields, rest) ← fields? fuel rest
          return ((key, value) :: fields, rest)
        | '\x7d' :: rest => return ([(key, value)], rest)
        | _ => none
      | _ => none
    | _ => none
end

/-- The tree of a text, with blanks around it and nothing else. A level of nesting takes at least
one character, so twice the length of the text is fuel enough. -/
def ofText? (source : String) : Option Tree :=
  let cs := source.toList
  match tree? (2 * cs.length + 1) cs with
  | some (tree, rest) => if skipBlanks rest = [] then some tree else none
  | none => none

end Tree

end Reshape.Json
