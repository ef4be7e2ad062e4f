/-!
# Words of 64 bits

Integers that fit 64 bits, with or without a sign.

* `leastWord`, `greatestWord` and `wordCount`, the ends of the ranges;
* `IsWord`, `word?`, an integer as a signed word, and `nearestWord`, which stops at the ends of the
  range;
* `word?_toInt`, which says that every word is the word of its integer, and `toInt_nearestWord`, the
  integer of the nearest word.
-/

namespace Reshape

/-- The least signed word. -/
def leastWord : Int := -9223372036854775808

/-- The greatest signed word. -/
def greatestWord : Int := 9223372036854775807

/-- The number of words, which is the first natural number that is no unsigned word. -/
def wordCount : Nat := 18446744073709551616

/-- An integer that is a signed word. -/
def IsWord (n : Int) : Prop := leastWord ≤ n ∧ n ≤ greatestWord

/-- An integer as a signed word, if it is one. -/
def word? (n : Int) : Option Int64 :=
  if leastWord ≤ n ∧ n ≤ greatestWord then some (Int64.ofInt n) else none

/-- The signed word nearest to an integer. -/
def nearestWord (n : Int) : Int64 := Int64.ofInt (max leastWord (min n greatestWord))

theorem leastWord_le_toInt (word : Int64) : leastWord ≤ word.toInt := Int64.le_toInt word

theorem toInt_le_greatestWord (word : Int64) : word.toInt ≤ greatestWord :=
  Int.le_of_lt_add_one (Int64.toInt_lt word)

theorem word?_toInt (word : Int64) : word? word.toInt = some word := by
  rw [word?, if_pos ⟨leastWord_le_toInt word, toInt_le_greatestWord word⟩, Int64.ofInt_toInt]

theorem toInt_nearestWord (n : Int) :
    (nearestWord n).toInt = max leastWord (min n greatestWord) := by
  have hlow : leastWord ≤ max leastWord (min n greatestWord) := Int.le_max_left _ _
  have hhigh : max leastWord (min n greatestWord) ≤ greatestWord :=
    Int.max_le.2 ⟨by decide, Int.min_le_right _ _⟩
  exact Int64.toInt_ofInt_of_le hlow (Int.lt_add_one_of_le hhigh)

theorem toInt_nearestWord_of_isWord {n : Int} (h : IsWord n) : (nearestWord n).toInt = n := by
  rw [toInt_nearestWord, Int.min_eq_left h.2, Int.max_eq_right h.1]

end Reshape
