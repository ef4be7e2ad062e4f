import Reshape.Json.Reference.Writer
import Reshape.Proofs.Number.IntegerText

/-!
# Numerals and quoted texts

What is written between quotes is a spelling of the text. The reference reader reads the digits of
an integer, and every spelling of a text, off the front of whatever follows them.

* `Text.Letters.Readable`, the alphabets of escapes that spell, and `Text.Letters.Readable.spelled`;
* `Tree.EndsNumeral`, the texts that no numeral goes on with;
* `numeral?_integerText` and `Numeral.toDatum_of_integer`, for integers of 64 bits;
* `Spelling.exists_pieces` and `Spelled.exists_pieces`.
-/

namespace Reshape

open Grammar

/-! ### What is written between quotes -/

/-- The letters of an alphabet stand for what they are written for, and quote and backslash have
one. -/
structure Text.Letters.Readable (letters : Text.Letters) : Prop where
  escaped : ∀ {c letter}, letters c = some letter → escaped? letter = some c
  quote : letters '"' ≠ none
  backslash : letters '\\' ≠ none

theorem Text.Letters.readable_plain : Text.Letters.plain.Readable where
  escaped {c letter} h := by
    unfold Text.Letters.plain at h
    split at h <;> cases h <;> rfl
  quote := nofun
  backslash := nofun

theorem Text.Letters.readable_full : Text.Letters.full.Readable where
  escaped {c letter} h := by
    unfold Text.Letters.full at h
    split at h
    · cases h
      rfl
    · cases h
      rfl
    · exact Text.Letters.readable_plain.escaped h
  quote := nofun
  backslash := nofun

/-- The code unit of a character below U+0020. -/
theorem unit?_of_lt {n : Nat} (h : n < 0x20) :
    unit? '0' '0' (Nat.digitChar (n / 16)) (Nat.digitChar (n % 16)) = some n := by
  have hall : ∀ n < 0x20,
      unit? '0' '0' (Nat.digitChar (n / 16)) (Nat.digitChar (n % 16)) = some n := by decide
  exact hall n h

namespace Text.Letters.Readable

variable {letters : Text.Letters}

/-- What is written for a character is a spelling of it. -/
theorem spelling (h : letters.Readable) (c : Char) : Spelling c (Text.escape letters c) := by
  unfold Text.escape
  cases hletter : letters c with
  | some letter => exact .letter (h.escaped hletter)
  | none =>
    have hquote : c ≠ '"' := by
      rintro rfl
      exact h.quote hletter
    have hbackslash : c ≠ '\\' := by
      rintro rfl
      exact h.backslash hletter
    by_cases hcontrol : c.toNat < 0x20
    · simp only [if_pos hcontrol]
      have hhigh : ¬ IsHigh c.toNat := fun h => absurd h.1 (by omega)
      have hlow : ¬ IsLow c.toNat := fun h => absurd h.1 (by omega)
      have hspelling := Spelling.unit (unit?_of_lt hcontrol) hhigh hlow
      rwa [Char.ofNat_toNat] at hspelling
    · simp only [if_neg hcontrol]
      exact .plain hquote hbackslash hcontrol

/-- What is written for a text, each character as it is spelled. -/
theorem spelled (h : letters.Readable) (cs : List Char) :
    Spelled cs (cs.flatMap (Text.escape letters) ++ ['"']) := by
  induction cs with
  | nil => exact .nil
  | cons c cs ih =>
    rw [List.flatMap_cons, List.append_assoc]
    exact .cons (h.spelling c) ih

end Text.Letters.Readable

/-! ### Numerals read back -/

/-- Only zero starts with a zero. -/
theorem exists_toDigits_eq_cons (n : Nat) :
    ∃ c tail, Nat.toDigits 10 n = c :: tail ∧ (c = '0' → n = 0) := by
  induction n using Nat.strongRecOn with
  | ind n ih =>
    rcases Nat.lt_or_ge n 10 with hsmall | hlarge
    · have hzero : ∀ n < 10, n.digitChar = '0' → n = 0 := by decide
      exact ⟨n.digitChar, [], Nat.toDigits_of_lt_base hsmall, hzero n hsmall⟩
    · obtain ⟨c, tail, hdigits, hzero⟩ := ih (n / 10) (by omega)
      refine ⟨c, tail ++ [(n % 10).digitChar], ?_, fun hc => ?_⟩
      · rw [Nat.toDigits_of_base_le (by decide) hlarge, hdigits]
        rfl
      · have := hzero hc
        omega

namespace Json.Tree

/-- A text that no numeral goes on with. -/
def EndsNumeral (rest : List Char) : Prop :=
  ∀ c ∈ rest.head?, c.isDigit = false ∧ c ≠ '.' ∧ c ≠ 'e' ∧ c ≠ 'E'

variable {digits rest : List Char}

theorem digits?_append (hne : digits ≠ []) (hdigits : ∀ c ∈ digits, c.isDigit = true)
    (hrest : EndsNumeral rest) : digits? (digits ++ rest) = some (digits, rest) := by
  have hnone : rest.takeWhile Char.isDigit = [] ∧ rest.dropWhile Char.isDigit = rest := by
    cases rest with
    | nil => exact ⟨rfl, rfl⟩
    | cons c rest =>
      obtain ⟨hc, -⟩ := hrest c rfl
      exact ⟨by simp [hc], by simp [hc]⟩
  rw [digits?, List.takeWhile_append_of_pos hdigits, List.dropWhile_append_of_pos hdigits, hnone.1,
    hnone.2, List.append_nil]
  cases digits with
  | nil => exact (hne rfl).elim
  | cons c digits => rfl

theorem whole?_toDigits (n : Nat) (hrest : EndsNumeral rest) :
    whole? (Nat.toDigits 10 n ++ rest) = some (Nat.toDigits 10 n, rest) := by
  obtain ⟨c, tail, hdigits, hzero⟩ := exists_toDigits_eq_cons n
  by_cases hn : n = 0
  · subst hn
    rw [Nat.toDigits_zero]
    cases rest with
    | nil => rfl
    | cons c rest => simp [whole?, (hrest c rfl).1]
  · have hread := digits?_append (Nat.toDigits_ne_nil (b := 10) (n := n))
      (fun c hc => Text.isDigit_of_mem_toDigits hc) hrest
    rw [hdigits] at hread ⊢
    rw [← hread, List.cons_append]
    unfold whole?
    split
    · rename_i heq
      exact (hn (hzero (List.cons.inj heq).1)).elim
    · rfl

theorem fraction?_eq_none (hrest : EndsNumeral rest) : fraction? rest = some (none, rest) := by
  unfold fraction?
  split
  · exact ((hrest '.' rfl).2.1 rfl).elim
  · rfl

theorem exponent?_eq_none (hrest : EndsNumeral rest) : exponent? rest = some (none, rest) := by
  unfold exponent?
  split
  · exact ((hrest 'e' rfl).2.2.1 rfl).elim
  · exact ((hrest 'E' rfl).2.2.2 rfl).elim
  · rfl

theorem unsigned?_toDigits (negative : Bool) (n : Nat) (hrest : EndsNumeral rest) :
    unsigned? negative (Nat.toDigits 10 n ++ rest) =
      some (⟨negative, Nat.toDigits 10 n, none, none⟩, rest) := by
  simp [unsigned?, whole?_toDigits n hrest, fraction?_eq_none hrest, exponent?_eq_none hrest]

/-- The digits of an integer under its sign are a numeral. -/
theorem numeral?_integerText (k : Int) (hrest : EndsNumeral rest) :
    numeral? (Text.integerText k ++ rest) =
      some (⟨decide (k < 0), Nat.toDigits 10 k.natAbs, none, none⟩, rest) := by
  unfold Text.integerText
  split
  · rename_i hneg
    rw [decide_eq_true hneg, List.cons_append, numeral?, unsigned?_toDigits true _ hrest]
  · rename_i hpos
    have hread := unsigned?_toDigits false k.natAbs hrest
    rw [decide_eq_false hpos, ← hread]
    unfold numeral?
    split
    · rename_i heq
      obtain ⟨c, tail, hdigits, -⟩ := exists_toDigits_eq_cons k.natAbs
      rw [hdigits] at heq
      have hdigit : c.isDigit = true :=
        Text.isDigit_of_mem_toDigits (hdigits ▸ List.mem_cons_self ..)
      rw [(List.cons.inj heq).1] at hdigit
      cases hdigit
    · rfl

end Json.Tree

/-- The numeral of an integer of 64 bits denotes it. -/
theorem Json.Numeral.toDatum_of_integer {k : Int} (hleast : leastWord ≤ k)
    (hcount : k < wordCount) :
    Numeral.toDatum ⟨decide (k < 0), Nat.toDigits 10 k.natAbs, none, none⟩ = .integer k := by
  have hinteger : Numeral.toInteger? ⟨decide (k < 0), Nat.toDigits 10 k.natAbs, none, none⟩ =
      some k := by
    simp only [Numeral.toInteger?, Nat.ofDigitChars_ten_toDigits, and_self, if_true,
      decide_eq_true_eq]
    split
    · rename_i hneg
      rw [if_pos (by omega), Option.some.injEq]
      omega
    · rename_i hpos
      rw [if_pos (by omega), Option.some.injEq]
      omega
  rw [toDatum, hinteger]

/-! ### Quoted texts read back -/

namespace Json

/-- A code unit that is no surrogate denotes its character. -/
theorem decodePieces?_unit {code : Nat} (hhigh : ¬ IsHigh code) (hlow : ¬ IsLow code)
    (pieces : List Piece) :
    decodePieces? (.unit code :: pieces) = (decodePieces? pieces).map (Char.ofNat code :: ·) := by
  have hnone : ¬ (IsHigh code ∨ IsLow code) := not_or.2 ⟨hhigh, hlow⟩
  cases pieces with
  | nil => simp only [decodePieces?, if_neg hnone]
  | cons piece rest =>
    cases piece with
    | plain c => simp only [decodePieces?, if_neg hnone]
    | unit low => simp only [decodePieces?, if_neg hhigh, if_neg hlow]

/-- Two code units of a pair denote one character. -/
theorem decodePieces?_pair {high low : Nat} (hhigh : IsHigh high) (hlow : IsLow low)
    (pieces : List Piece) :
    decodePieces? (.unit high :: .unit low :: pieces) =
      (decodePieces? pieces).map (joined high low :: ·) := by
  simp only [decodePieces?, if_pos hhigh, if_pos hlow]

namespace Tree

theorem pieces?_letter {letter c : Char} (h : escaped? letter = some c) (rest : List Char) :
    pieces? ('\\' :: letter :: rest) =
      (pieces? rest).map fun (pieces, rest) => (.plain c :: pieces, rest) := by
  have hu : letter ≠ 'u' := by
    rintro rfl
    cases h
  rw [pieces?]
  · cases pieces? rest <;> simp [h]
  · exact fun _ _ _ _ _ heq => (hu heq).elim

theorem pieces?_unit {a b c d : Char} {code : Nat} (h : unit? a b c d = some code)
    (rest : List Char) :
    pieces? ('\\' :: 'u' :: a :: b :: c :: d :: rest) =
      (pieces? rest).map fun (pieces, rest) => (.unit code :: pieces, rest) := by
  rw [pieces?]
  cases pieces? rest <;> simp [h]

theorem pieces?_plain {c : Char} (hquote : c ≠ '"') (hbackslash : c ≠ '\\')
    (hcontrol : ¬ c.toNat < 0x20) (rest : List Char) :
    pieces? (c :: rest) = (pieces? rest).map fun (pieces, rest) => (.plain c :: pieces, rest) := by
  rw [pieces?, if_neg (not_or.2 ⟨hbackslash, hcontrol⟩)]
  · exact hquote
  · exact fun _ _ _ _ _ heq => (hbackslash heq).elim
  · exact fun _ _ heq => (hbackslash heq).elim

end Tree

end Json

open Json

/-- A spelling of a character is read as pieces that denote the character. -/
theorem Spelling.exists_pieces {c : Char} {spelling : List Char} (h : Spelling c spelling) :
    ∃ pieces, (∀ rest, Tree.pieces? (spelling ++ rest) =
        (Tree.pieces? rest).map fun (more, rest) => (pieces ++ more, rest)) ∧
      ∀ more, decodePieces? (pieces ++ more) = (decodePieces? more).map (c :: ·) := by
  cases h with
  | plain hquote hbackslash hcontrol =>
    exact ⟨[.plain c], Tree.pieces?_plain hquote hbackslash hcontrol, fun _ => rfl⟩
  | letter h => exact ⟨[.plain c], Tree.pieces?_letter h, fun _ => rfl⟩
  | unit hcode hhigh hlow =>
    exact ⟨[.unit _], Tree.pieces?_unit hcode, decodePieces?_unit hhigh hlow⟩
  | @pair a b c d a' b' c' d' high low hcode hcode' hhigh hlow =>
    refine ⟨[.unit high, .unit low], fun rest => ?_, decodePieces?_pair hhigh hlow⟩
    have hread := Tree.pieces?_unit hcode ('\\' :: 'u' :: a' :: b' :: c' :: d' :: rest)
    rw [Tree.pieces?_unit hcode', Option.map_map] at hread
    exact hread

/-- A spelled text is read up to its closing quote, as pieces that denote the text. -/
theorem Spelled.exists_pieces {cs spelled : List Char} (h : Spelled cs spelled)
    (rest : List Char) :
    ∃ pieces, Tree.pieces? (spelled ++ rest) = some (pieces, rest) ∧
      decodePieces? pieces = some cs := by
  induction h with
  | nil => exact ⟨[], rfl, rfl⟩
  | cons h hmore ih =>
    obtain ⟨pieces, hread, hdecode⟩ := h.exists_pieces
    obtain ⟨more, hpieces, hcs⟩ := ih
    refine ⟨pieces ++ more, ?_, ?_⟩
    · rw [List.append_assoc, hread, hpieces]
      rfl
    · rw [hdecode, hcs]
      rfl

end Reshape
