import Reshape.Word

/-!
# Integers in decimal

Reading natural numbers and signed 64-bit words from decimal digits.

* `readNatural?` takes one or more ASCII digits;
* `readWord?` takes an optional sign and digits, and refuses what does not fit 64 signed bits;
* `wordText`, the text of a word; `readWord?_wordText` says that it reads back.
-/

namespace Reshape.Text

/-- The number that one or more decimal digits denote. -/
def readNatural? (text : List Char) : Option Nat :=
  if text ≠ [] ∧ text.all Char.isDigit then some (Nat.ofDigitChars 10 text 0) else none

/-- The signed 64-bit word that a text denotes: digits with an optional sign before them. -/
def readWord? : List Char → Option Int64
  | '+' :: digits => (readNatural? digits).bind fun n => word? n
  | '-' :: digits => (readNatural? digits).bind fun n => word? (-n)
  | digits => (readNatural? digits).bind fun n => word? n

/-- The decimal text of an integer, a minus sign first if it is negative. -/
def integerText (n : Int) : List Char :=
  if n < 0 then '-' :: Nat.toDigits 10 n.natAbs else Nat.toDigits 10 n.natAbs

/-- The decimal text of a word. -/
def wordText (word : Int64) : List Char := integerText word.toInt

theorem isDigit_of_mem_toDigits {n : Nat} {c : Char} (h : c ∈ Nat.toDigits 10 n) :
    c.isDigit = true :=
  Nat.isDigit_of_mem_toDigits (show 0 < 10 by decide) (Nat.le_refl 10) h

theorem readNatural?_toDigits (n : Nat) : readNatural? (Nat.toDigits 10 n) = some n := by
  have hd : (Nat.toDigits 10 n).all Char.isDigit = true := by
    rw [List.all_eq_true]
    intro c hc
    exact isDigit_of_mem_toDigits hc
  simp [readNatural?, Nat.toDigits_ne_nil, hd, Nat.ofDigitChars_ten_toDigits]

/-- The text of a word denotes the word. -/
theorem readWord?_wordText (word : Int64) : readWord? (wordText word) = some word := by
  unfold wordText integerText
  split
  · rename_i h
    simp only [readWord?, readNatural?_toDigits, Option.bind_some]
    rw [show -((word.toInt.natAbs : Nat) : Int) = word.toInt by omega, word?_toInt]
  · rename_i h
    have hp := readNatural?_toDigits word.toInt.natAbs
    have hd : ∀ c ∈ Nat.toDigits 10 word.toInt.natAbs, c.isDigit = true :=
      fun c hc => isDigit_of_mem_toDigits hc
    unfold readWord?
    split
    · rename_i ds hds
      exact absurd (hd '+' (by simp [hds])) (by decide)
    · rename_i ds hds
      exact absurd (hd '-' (by simp [hds])) (by decide)
    · rw [hp, Option.bind_some, show ((word.toInt.natAbs : Nat) : Int) = word.toInt by omega,
        word?_toInt]

end Reshape.Text
