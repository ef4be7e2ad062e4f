import Reshape.Json.Codec
import Reshape.Text.Integer

/-!
# The grammar of JSON texts

Which characters are a text of a datum, for data whose numbers are integers of 64 bits. A datum has
many texts, as blanks may stand around every value and every key, and as a character can be spelled
in several ways inside quotes. What results about texts ask of a codec is stated with this relation:
that it writes a text of a datum, and that it reads each of them.

* `Grammar.isBlank`, `Grammar.escaped?`, `Grammar.unit?` and `Grammar.joined`, the characters
  between lexemes and the escapes inside quotes;
* `Spelling`, the ways to spell a character, and `Spelled`, a text from quote to quote;
* `Datum.Written`, the texts of a datum, and `Datum.Padded`, with blanks around them;
* `Datum.Portable`, the data that every codec has to carry;
* `Codec.WritesJson` and `Codec.ReadsJson`.
-/

namespace Reshape

namespace Grammar

/-- The blanks between the lexemes of a text. -/
def isBlank (c : Char) : Bool := c == ' ' || c == '\t' || c == '\n' || c == '\r'

/-- The character that a letter behind a backslash stands for. -/
def escaped? : Char → Option Char
  | '"' => some '"'
  | '\\' => some '\\'
  | '/' => some '/'
  | 'b' => some '\x08'
  | 'f' => some '\x0c'
  | 'n' => some '\n'
  | 'r' => some '\r'
  | 't' => some '\t'
  | _ => none

/-- The value of a hexadecimal digit of either case. -/
def hexDigit? (c : Char) : Option Nat :=
  if c.isDigit then some (c.toNat - '0'.toNat)
  else if 'a' ≤ c ∧ c ≤ 'f' then some (c.toNat - 'a'.toNat + 10)
  else if 'A' ≤ c ∧ c ≤ 'F' then some (c.toNat - 'A'.toNat + 10)
  else none

/-- The code unit that four hexadecimal digits denote. -/
def unit? (a b c d : Char) : Option Nat := do
  let a ← hexDigit? a
  let b ← hexDigit? b
  let c ← hexDigit? c
  let d ← hexDigit? d
  return ((a * 16 + b) * 16 + c) * 16 + d

/-- The first code unit of a pair. -/
def IsHigh (code : Nat) : Prop := 0xd800 ≤ code ∧ code < 0xdc00

/-- The second code unit of a pair. -/
def IsLow (code : Nat) : Prop := 0xdc00 ≤ code ∧ code < 0xe000

instance (code : Nat) : Decidable (IsHigh code) := inferInstanceAs (Decidable (_ ∧ _))

instance (code : Nat) : Decidable (IsLow code) := inferInstanceAs (Decidable (_ ∧ _))

/-- The character of a pair of code units. -/
def joined (high low : Nat) : Char :=
  Char.ofNat (0x10000 + (high - 0xd800) * 0x400 + (low - 0xdc00))

/-- The characters may stand between the lexemes of a text. -/
def Blanks (gap : List Char) : Prop := ∀ c ∈ gap, isBlank c = true

end Grammar

open Grammar

/-! ### Quoted texts -/

/-- The ways to spell a character inside quotes. -/
inductive Spelling : Char → List Char → Prop
  /-- As itself, unless it ends the text, starts an escape or is below U+0020. -/
  | plain {c : Char} (hquote : c ≠ '"') (hbackslash : c ≠ '\\') (hcontrol : ¬ c.toNat < 0x20) :
      Spelling c [c]
  | letter {letter c : Char} (h : escaped? letter = some c) : Spelling c ['\\', letter]
  | unit {a b c d : Char} {code : Nat} (hcode : unit? a b c d = some code) (hhigh : ¬ IsHigh code)
      (hlow : ¬ IsLow code) : Spelling (Char.ofNat code) ['\\', 'u', a, b, c, d]
  | pair {a b c d a' b' c' d' : Char} {high low : Nat} (hcode : unit? a b c d = some high)
      (hcode' : unit? a' b' c' d' = some low) (hhigh : IsHigh high) (hlow : IsLow low) :
      Spelling (joined high low) ['\\', 'u', a, b, c, d, '\\', 'u', a', b', c', d']

/-- A text as it is written behind its first quote. -/
inductive Spelled : List Char → List Char → Prop
  | nil : Spelled [] ['"']
  | cons {c : Char} {cs spelling more : List Char} (h : Spelling c spelling)
      (hmore : Spelled cs more) : Spelled (c :: cs) (spelling ++ more)

/-- A key with blanks around it. -/
inductive PaddedKey : String → List Char → Prop
  | mk {key : String} {before spelled behind : List Char} (hbefore : Blanks before)
      (h : Spelled key.toList spelled) (hbehind : Blanks behind) :
      PaddedKey key (before ++ '"' :: (spelled ++ behind))

/-! ### Values -/

namespace Datum

mutual
/-- The texts of a datum. -/
inductive Written : Datum → List Char → Prop
  | null : Written .null ['n', 'u', 'l', 'l']
  | true : Written (.bool true) ['t', 'r', 'u', 'e']
  | false : Written (.bool false) ['f', 'a', 'l', 's', 'e']
  | integer (v : Int) : Written (.integer v) (Text.integerText v)
  | text {s : String} {spelled : List Char} (h : Spelled s.toList spelled) :
      Written (.text s) ('"' :: spelled)
  | emptyArray {gap : List Char} (hgap : Blanks gap) : Written (.array []) ('[' :: (gap ++ [']']))
  | array {item : Datum} {rest : List Datum} {items : List Char}
      (h : WrittenItems item rest items) : Written (.array (item :: rest)) ('[' :: items)
  | emptyObject {gap : List Char} (hgap : Blanks gap) :
      Written (.object []) ('\x7b' :: (gap ++ ['\x7d']))
  | object {field : String × Datum} {rest : List (String × Datum)} {fields : List Char}
      (h : WrittenFields field rest fields) : Written (.object (field :: rest)) ('\x7b' :: fields)

/-- The texts of a datum with blanks around them, which are the whole texts that denote it. -/
inductive Padded : Datum → List Char → Prop
  | mk {d : Datum} {before text behind : List Char} (hbefore : Blanks before) (h : Written d text)
      (hbehind : Blanks behind) : Padded d (before ++ (text ++ behind))

/-- The texts of one or more items up to the end of their array. -/
inductive WrittenItems : Datum → List Datum → List Char → Prop
  | last {item : Datum} {text : List Char} (h : Padded item text) :
      WrittenItems item [] (text ++ [']'])
  | more {item next : Datum} {rest : List Datum} {text items : List Char} (h : Padded item text)
      (hmore : WrittenItems next rest items) :
      WrittenItems item (next :: rest) (text ++ ',' :: items)

/-- The texts of one or more fields up to the end of their object. -/
inductive WrittenFields : String × Datum → List (String × Datum) → List Char → Prop
  | last {key : String} {value : Datum} {name text : List Char} (hkey : PaddedKey key name)
      (h : Padded value text) : WrittenFields (key, value) [] (name ++ ':' :: (text ++ ['\x7d']))
  | more {key : String} {value : Datum} {next : String × Datum} {rest : List (String × Datum)}
      {name text fields : List Char} (hkey : PaddedKey key name) (h : Padded value text)
      (hmore : WrittenFields next rest fields) :
      WrittenFields (key, value) (next :: rest) (name ++ ':' :: (text ++ ',' :: fields))
end

/-- The numbers of the datum are integers of 64 bits, with or without a sign, and its containers
nest no deeper than the bound. -/
inductive Portable : Nat → Datum → Prop
  | null {bound : Nat} : Portable bound .null
  | bool {bound : Nat} (b : Bool) : Portable bound (.bool b)
  | integer {bound : Nat} {v : Int} (hleast : leastWord ≤ v) (hcount : v < wordCount) :
      Portable bound (.integer v)
  | text {bound : Nat} (s : String) : Portable bound (.text s)
  | array {bound : Nat} {items : List Datum} (h : ∀ item ∈ items, Portable bound item) :
      Portable (bound + 1) (.array items)
  | object {bound : Nat} {fields : List (String × Datum)}
      (h : ∀ field ∈ fields, Portable bound field.2) : Portable (bound + 1) (.object fields)

end Datum

/-! ### What is asked of a codec -/

/-- How deep the containers of a text may nest. -/
def deepestNesting : Nat := 127

namespace Codec

/-- What the codec writes for a datum, on one line or on many, is a text of the datum. -/
structure WritesJson (codec : Codec) : Prop where
  write {d : Datum} (h : d.Portable deepestNesting) :
    ∃ text, codec.write d = some (String.ofList text) ∧ d.Padded text
  writePretty {d : Datum} (h : d.Portable deepestNesting) :
    ∃ text, codec.writePretty d = some (String.ofList text) ∧ d.Padded text

/-- Each of the texts of a datum is read as the datum. -/
def ReadsJson (codec : Codec) : Prop :=
  ∀ {d : Datum} {text : List Char}, d.Portable deepestNesting → d.Padded text →
    codec.read (String.ofList text) = some d

end Codec

end Reshape
