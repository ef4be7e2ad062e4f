import Mathlib.Data.List.DropRight
import Reshape.Path.Parser

/-!
# The pieces of a text in brackets

What trimming and splitting do to a text, and which characters the text of a word has.

* `Text.exists_trim` and `Text.trim_eq_self`, what is trimmed off, and the texts that are kept;
* `Path.splitFirst?_eq_some` and `Path.splitAll_eq_splitOn`, the parts around separators;
* `Text.not_mem_wordText`, the characters that no word has;
* `Component.splitAll_indexList`, which reads a list of words back.
-/

namespace Reshape

/-! ### Trimming -/

namespace Text

variable {cs : List Char}

theorem trimEnd_eq_rdropWhile : trimEnd cs = cs.rdropWhile isBlank := rfl

/-- A text of blanks only. -/
def AllBlank (cs : List Char) : Prop := ∀ c ∈ cs, isBlank c = true

theorem AllBlank.not_mem {c : Char} (h : AllBlank cs) (hc : isBlank c = false) : c ∉ cs := by
  intro hmem
  rw [h c hmem] at hc
  cases hc

/-- Only blanks are trimmed off the ends. -/
theorem exists_trim (cs : List Char) :
    ∃ front back, cs = front ++ (trim cs ++ back) ∧ AllBlank front ∧ AllBlank back := by
  refine ⟨cs.takeWhile isBlank, (trimStart cs).rtakeWhile isBlank, ?_,
    fun c hc => List.mem_takeWhile_imp hc, fun c hc => ?_⟩
  · rw [trim, trimEnd_eq_rdropWhile, List.rdropWhile_append_rtakeWhile]
    exact List.takeWhile_append_dropWhile.symm
  · rw [List.rtakeWhile, List.mem_reverse] at hc
    exact List.mem_takeWhile_imp hc

theorem length_trim_le (cs : List Char) : (trim cs).length ≤ cs.length := by
  obtain ⟨front, back, hcs, -, -⟩ := exists_trim cs
  have hlength := congrArg List.length hcs
  simp only [List.length_append] at hlength
  omega

theorem not_isBlank_of_getLast?_trim {c : Char} (h : (trim cs).getLast? = some c) :
    isBlank c = false := by
  have hne : trim cs ≠ [] := by
    intro hnil
    rw [hnil] at h
    cases h
  rw [List.getLast?_eq_some_getLast hne, Option.some.injEq] at h
  rw [← h]
  exact Bool.eq_false_iff.2 (List.rdropWhile_last_not isBlank (trimStart cs) hne)

/-- A text without blanks at its ends is kept. -/
theorem trim_eq_self (hfront : ∀ c, cs.head? = some c → isBlank c = false)
    (hback : ∀ c, cs.getLast? = some c → isBlank c = false) : trim cs = cs := by
  have hstart : trimStart cs = cs := by
    cases cs with
    | nil => rfl
    | cons c cs => exact List.dropWhile_cons_of_neg (by simp [hfront c rfl])
  rw [trim, hstart, trimEnd_eq_rdropWhile, List.rdropWhile_eq_self_iff]
  intro hne
  simp [hback _ (List.getLast?_eq_some_getLast hne)]

theorem trim_of_blankless (h : ∀ c ∈ cs, isBlank c = false) : trim cs = cs :=
  trim_eq_self (fun c hc => h c (List.mem_of_head? hc)) fun c hc => h c (List.mem_of_getLast? hc)

end Text

/-! ### Splitting -/

namespace Path

variable {sep : Char} {cs before after : List Char}

theorem splitFirst?_eq_some :
    splitFirst? sep cs = some (before, after) ↔ cs = before ++ sep :: after ∧ sep ∉ before := by
  induction cs generalizing before with
  | nil => simp [splitFirst?]
  | cons c cs ih =>
    rw [splitFirst?]
    split
    next hc =>
      subst hc
      cases before with
      | nil => simp [eq_comm]
      | cons b before =>
        simp only [Option.some.injEq, Prod.mk.injEq, List.cons_append, List.cons.injEq,
          List.mem_cons, not_or]
        constructor
        · rintro ⟨⟨⟩, _⟩
        · rintro ⟨⟨rfl, _⟩, hne, _⟩
          exact (hne rfl).elim
    next hc =>
      rw [Option.map_eq_some_iff]
      constructor
      · rintro ⟨⟨front, behind⟩, hsplit, hpair⟩
        cases hpair
        obtain ⟨rfl, hfront⟩ := ih.1 hsplit
        simp [hfront, Ne.symm hc]
      · rintro ⟨hcs, hbefore⟩
        cases before with
        | nil => exact (hc (List.cons.inj hcs).1).elim
        | cons b before =>
          rw [List.cons_append, List.cons.injEq] at hcs
          obtain ⟨rfl, hcs⟩ := hcs
          rw [List.mem_cons, not_or] at hbefore
          exact ⟨(before, after), ih.2 ⟨hcs, hbefore.2⟩, rfl⟩

theorem splitFirst?_eq_none (h : sep ∉ cs) : splitFirst? sep cs = none := by
  rw [Option.eq_none_iff_forall_ne_some]
  rintro ⟨before, after⟩ hsplit
  obtain ⟨rfl, _⟩ := splitFirst?_eq_some.1 hsplit
  exact h (by simp)

theorem splitAll_eq_splitOn (sep : Char) (cs : List Char) : splitAll sep cs = cs.splitOn sep := by
  induction cs with
  | nil => rfl
  | cons c cs ih =>
    rw [List.splitOn_cons_eq_if_modifyHead, splitAll, ih]
    by_cases hc : c = sep
    · simp [hc]
    · obtain ⟨part, parts, hparts⟩ := List.exists_cons_of_ne_nil (List.splitOn_ne_nil sep cs)
      simp [hc, hparts]

/-- A separator leaves at least two parts. -/
theorem two_le_length_splitAll (h : sep ∈ cs) : 2 ≤ (splitAll sep cs).length := by
  obtain ⟨before, after, rfl⟩ := List.append_of_mem h
  have hbefore := List.length_pos_of_ne_nil (List.splitOn_ne_nil sep before)
  have hafter := List.length_pos_of_ne_nil (List.splitOn_ne_nil sep after)
  rw [splitAll_eq_splitOn, List.splitOn_append_cons_self, List.length_append]
  omega

end Path

/-! ### Words -/

namespace Text

variable {c : Char} {word : Int64}

theorem mem_wordText (h : c ∈ wordText word) : c = '-' ∨ c.isDigit = true := by
  unfold wordText integerText at h
  split at h
  · rcases List.mem_cons.1 h with hc | hc
    · exact .inl hc
    · exact .inr (isDigit_of_mem_toDigits hc)
  · exact .inr (isDigit_of_mem_toDigits h)

/-- A word has no characters but digits and the minus sign. -/
theorem not_mem_wordText (hsign : c ≠ '-') (hdigit : c.isDigit = false) : c ∉ wordText word := by
  intro h
  rcases mem_wordText h with hc | hc
  · exact hsign hc
  · rw [hdigit] at hc
    cases hc

theorem not_isBlank_of_mem_wordText (h : c ∈ wordText word) : isBlank c = false := by
  rw [Bool.eq_false_iff]
  intro hblank
  have hall : blanks.all (fun b => b != '-' && !b.isDigit) = true := rfl
  have hc := List.all_eq_true.1 hall c (List.contains_iff_mem.1 hblank)
  rw [Bool.and_eq_true, bne_iff_ne, Bool.not_eq_true'] at hc
  exact not_mem_wordText hc.1 hc.2 h

theorem trim_wordText (word : Int64) : trim (wordText word) = wordText word :=
  trim_of_blankless fun _ => not_isBlank_of_mem_wordText

end Text

namespace Component

variable {c : Char} {indices : List Int64}

theorem indexList_cons_cons (index next : Int64) (indices : List Int64) :
    indexList (index :: next :: indices) =
      Text.wordText index ++ ',' :: indexList (next :: indices) := rfl

theorem indexList_eq_intercalate (indices : List Int64) :
    indexList indices = [','].intercalate (indices.map Text.wordText) := by
  induction indices with
  | nil => rfl
  | cons index indices ih =>
    cases indices with
    | nil => simp [indexList]
    | cons next indices =>
      rw [indexList_cons_cons, ih, List.map_cons, List.map_cons, List.map_cons,
        List.intercalate_cons_cons, List.append_assoc, List.singleton_append]

theorem mem_indexList (h : c ∈ indexList indices) :
    c = ',' ∨ ∃ index ∈ indices, c ∈ Text.wordText index := by
  induction indices with
  | nil => cases h
  | cons index indices ih =>
    cases indices with
    | nil => exact .inr ⟨index, List.mem_cons_self, h⟩
    | cons next indices =>
      rw [indexList_cons_cons, List.mem_append, List.mem_cons] at h
      rcases h with h | rfl | h
      · exact .inr ⟨index, List.mem_cons_self, h⟩
      · exact .inl rfl
      · rcases ih h with hc | ⟨found, hmem, hc⟩
        · exact .inl hc
        · exact .inr ⟨found, List.mem_cons_of_mem _ hmem, hc⟩

/-- A list of words is read back between its commas. -/
theorem splitAll_indexList (hne : indices ≠ []) :
    Path.splitAll ',' (indexList indices) = indices.map Text.wordText := by
  rw [Path.splitAll_eq_splitOn, indexList_eq_intercalate]
  refine List.splitOn_intercalate ',' ?_ (by simpa using hne)
  intro part hpart
  obtain ⟨index, _, rfl⟩ := List.mem_map.1 hpart
  exact Text.not_mem_wordText (by decide) (by decide)

end Component

end Reshape
