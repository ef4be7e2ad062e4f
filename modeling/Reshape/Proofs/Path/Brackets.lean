import Reshape.Proofs.Path.Nesting

/-!
# What a text in brackets denotes

The text between the brackets of a component is trimmed as a whole, and so are the ends of a range
and the parts of a list. So what it denotes can be told from the text as it stands, blanks and all.

* `Text.trim_blanks_append` and the lemmas beside it: blanks at the ends of a text and around a
  character of it;
* `Path.uncut_blanks_append`, blanks do not move the scan for dots;
* `Path.map_trim_splitAll_blanks_append` and the lemmas beside it: blanks around the parts of a
  list;
* `Path.Denotes`, the component of a text in brackets, with a constructor for each form;
* `Path.bracket_trim_eq_ok`, reading succeeds with what is denoted;
* `Path.segment_cases`, the forms of an accepted segment.
-/

namespace Reshape

/-! ### Blanks -/

namespace Text

variable {c : Char} {cs blanks : List Char}

theorem trimStart_append_cons (hc : isBlank c = false) (before after : List Char) :
    trimStart (before ++ c :: after) = trimStart before ++ c :: after := by
  have hrest : (c :: after).dropWhile isBlank = c :: after :=
    List.dropWhile_cons_of_neg (by simp [hc])
  rw [trimStart, trimStart, List.dropWhile_append, hrest]
  split
  next hnil => rw [List.isEmpty_iff.1 hnil, List.nil_append]
  next => rfl

theorem trimEnd_append_cons (hc : isBlank c = false) (before after : List Char) :
    trimEnd (before ++ c :: after) = before ++ c :: trimEnd after := by
  have hreverse : (before ++ c :: after).reverse = after.reverse ++ c :: before.reverse := by simp
  have htrim := trimStart_append_cons hc after.reverse before.reverse
  rw [trimStart, trimStart] at htrim
  rw [trimEnd, trimEnd, hreverse, htrim]
  simp

theorem trim_append_cons (hc : isBlank c = false) (before after : List Char) :
    trim (before ++ c :: after) = trimStart before ++ c :: trimEnd after := by
  rw [trim, trimStart_append_cons hc, trimEnd_append_cons hc]

theorem trim_blanks_append (h : AllBlank blanks) (cs : List Char) :
    trim (blanks ++ cs) = trim cs := by
  rw [trim, trim, trimStart, trimStart, List.dropWhile_append_of_pos h]

theorem trimEnd_append_blanks (h : AllBlank blanks) (cs : List Char) :
    trimEnd (cs ++ blanks) = trimEnd cs := by
  have hreverse : ∀ c ∈ blanks.reverse, isBlank c = true := fun c hc => h c (List.mem_reverse.1 hc)
  rw [trimEnd, trimEnd, List.reverse_append, List.dropWhile_append_of_pos hreverse]

theorem trim_append_blanks (h : AllBlank blanks) (cs : List Char) :
    trim (cs ++ blanks) = trim cs := by
  have hblanks : blanks.dropWhile isBlank = [] := List.dropWhile_eq_nil_iff.2 h
  rw [trim, trim, trimStart, List.dropWhile_append, hblanks]
  split
  next hnil => rw [trimStart, List.isEmpty_iff.1 hnil]
  next => exact trimEnd_append_blanks h _

theorem trim_trimStart (cs : List Char) : trim (trimStart cs) = trim cs := by
  rw [trim, trim, trimStart, trimStart, List.dropWhile_idempotent]

theorem trim_trimEnd (cs : List Char) : trim (trimEnd cs) = trim cs := by
  have hback : AllBlank (cs.rtakeWhile isBlank) := fun c hc =>
    List.mem_takeWhile_imp (List.mem_reverse.1 hc)
  have hcs : trimEnd cs ++ cs.rtakeWhile isBlank = cs := List.rdropWhile_append_rtakeWhile
  conv_rhs => rw [← hcs, trim_append_blanks hback]

theorem mem_trim_iff (hc : isBlank c = false) : c ∈ trim cs ↔ c ∈ cs := by
  obtain ⟨front, back, hcs, hfront, hback⟩ := exists_trim cs
  constructor
  · intro hmem
    rw [hcs]
    exact List.mem_append_right _ (List.mem_append_left _ hmem)
  · intro hmem
    rw [hcs, List.mem_append, List.mem_append] at hmem
    rcases hmem with hmem | hmem | hmem
    · exact (hfront.not_mem hc hmem).elim
    · exact hmem
    · exact (hback.not_mem hc hmem).elim

/-- A word is read from digits and a sign. -/
theorem not_mem_of_readWord? {word : Int64} (h : readWord? cs = some word) (hplus : c ≠ '+')
    (hminus : c ≠ '-') (hdigit : c.isDigit = false) : c ∉ cs := by
  have hnatural {digits : List Char} {n : Nat} (h : readNatural? digits = some n) :
      c ∉ digits := by
    unfold readNatural? at h
    split at h
    next hdigits =>
      intro hmem
      rw [List.all_eq_true.1 hdigits.2 c hmem] at hdigit
      cases hdigit
    next => cases h
  unfold readWord? at h
  split at h
  · obtain ⟨n, hn, -⟩ := Option.bind_eq_some_iff.1 h
    rw [List.mem_cons, not_or]
    exact ⟨hplus, hnatural hn⟩
  · obtain ⟨n, hn, -⟩ := Option.bind_eq_some_iff.1 h
    rw [List.mem_cons, not_or]
    exact ⟨hminus, hnatural hn⟩
  · obtain ⟨n, hn, -⟩ := Option.bind_eq_some_iff.1 h
    exact hnatural hn

/-- The characters that stand in no word, and not around one either. -/
def IsForeign (c : Char) : Prop :=
  isBlank c = false ∧ c ≠ '+' ∧ c ≠ '-' ∧ c.isDigit = false

instance : DecidablePred IsForeign := fun _ => inferInstanceAs (Decidable (_ ∧ _ ∧ _ ∧ _))

theorem IsForeign.not_mem {word : Int64} (hc : IsForeign c)
    (h : readWord? (trim cs) = some word) : c ∉ cs := by
  rw [← mem_trim_iff hc.1]
  exact not_mem_of_readWord? h hc.2.1 hc.2.2.1 hc.2.2.2

end Text

namespace Path

open Text

variable {sep c : Char} {cs blanks inside : List Char} {name : String}
  {check : List Char → Except SyntaxError Unit} {component : Component}

/-! ### Blanks in the scan -/

theorem bracketless_of_allBlank (h : AllBlank blanks) : Bracketless blanks :=
  ⟨h.not_mem (by decide), h.not_mem (by decide)⟩

theorem uncut_of_allBlank {i : Bool} (h : AllBlank blanks) : Uncut i blanks :=
  uncut_of_dotless (h.not_mem (by decide))

/-- Blanks do not move the scan. -/
theorem uncut_blanks_append {i : Bool} (h : AllBlank blanks) :
    Uncut i (blanks ++ cs) ↔ Uncut i cs := by
  rw [uncut_append, (bracketless_of_allBlank h).insideBehind]
  exact and_iff_right (uncut_of_allBlank h)

/-! ### The parts of a list -/

theorem splitAll_append_cons_self (sep : Char) (before after : List Char) :
    splitAll sep (before ++ sep :: after) = splitAll sep before ++ splitAll sep after := by
  rw [splitAll_eq_splitOn, splitAll_eq_splitOn, splitAll_eq_splitOn, List.splitOn_append_cons_self]

theorem splitAll_cons_of_ne (hc : c ≠ sep) {part : List Char} {parts : List (List Char)}
    (h : splitAll sep cs = part :: parts) : splitAll sep (c :: cs) = (c :: part) :: parts := by
  rw [splitAll, if_neg hc, h]

theorem exists_splitAll (sep : Char) (cs : List Char) :
    ∃ part parts, splitAll sep cs = part :: parts := by
  rw [splitAll_eq_splitOn]
  exact List.exists_cons_of_ne_nil (List.splitOn_ne_nil sep cs)

/-- A text without separators in front belongs to the first part. -/
theorem exists_splitAll_front (hsep : sep ∉ blanks) (cs : List Char) :
    ∃ part parts, splitAll sep cs = part :: parts ∧
      splitAll sep (blanks ++ cs) = (blanks ++ part) :: parts := by
  induction blanks with
  | nil =>
    obtain ⟨part, parts, hparts⟩ := exists_splitAll sep cs
    exact ⟨part, parts, hparts, hparts⟩
  | cons c blanks ih =>
    rw [List.mem_cons, not_or] at hsep
    obtain ⟨part, parts, hcs, hparts⟩ := ih hsep.2
    exact ⟨part, parts, hcs, splitAll_cons_of_ne (Ne.symm hsep.1) hparts⟩

/-- A text without separators at the end belongs to the last part. -/
theorem exists_splitAll_back (hsep : sep ∉ blanks) (cs : List Char) :
    ∃ parts part, splitAll sep cs = parts ++ [part] ∧
      splitAll sep (cs ++ blanks) = parts ++ [part ++ blanks] := by
  induction cs with
  | nil =>
    obtain ⟨part, parts, hnil, hblanks⟩ := exists_splitAll_front hsep []
    cases hnil
    rw [List.append_nil] at hblanks
    exact ⟨[], [], rfl, hblanks⟩
  | cons c cs ih =>
    obtain ⟨parts, part, hcs, hparts⟩ := ih
    by_cases hc : c = sep
    · refine ⟨[] :: parts, part, ?_, ?_⟩
      · rw [splitAll, if_pos hc, hcs, List.cons_append]
      · rw [List.cons_append, splitAll, if_pos hc, hparts, List.cons_append]
    · cases parts with
      | nil => exact ⟨[], c :: part, splitAll_cons_of_ne hc hcs, splitAll_cons_of_ne hc hparts⟩
      | cons first parts =>
        exact ⟨(c :: first) :: parts, part, splitAll_cons_of_ne hc hcs,
          splitAll_cons_of_ne hc hparts⟩

theorem map_trim_splitAll_blanks_append (hsep : isBlank sep = false) (h : AllBlank blanks)
    (cs : List Char) : (splitAll sep (blanks ++ cs)).map trim = (splitAll sep cs).map trim := by
  obtain ⟨part, parts, hcs, hparts⟩ := exists_splitAll_front (h.not_mem hsep) cs
  rw [hcs, hparts, List.map_cons, List.map_cons, trim_blanks_append h]

theorem map_trim_splitAll_append_blanks (hsep : isBlank sep = false) (h : AllBlank blanks)
    (cs : List Char) : (splitAll sep (cs ++ blanks)).map trim = (splitAll sep cs).map trim := by
  obtain ⟨parts, part, hcs, hparts⟩ := exists_splitAll_back (h.not_mem hsep) cs
  rw [hcs, hparts, List.map_append, List.map_append, List.map_singleton, List.map_singleton,
    trim_append_blanks h]

theorem map_trim_splitAll_trim (hsep : isBlank sep = false) (cs : List Char) :
    (splitAll sep (trim cs)).map trim = (splitAll sep cs).map trim := by
  obtain ⟨front, back, hcs, hfront, hback⟩ := exists_trim cs
  conv_rhs => rw [hcs, map_trim_splitAll_blanks_append hsep hfront,
    map_trim_splitAll_append_blanks hsep hback]

theorem exists_mem_splitAll (hc : c ≠ sep) (h : c ∈ cs) : ∃ part ∈ splitAll sep cs, c ∈ part := by
  induction cs with
  | nil => cases h
  | cons d cs ih =>
    by_cases hd : d = sep
    · rcases List.mem_cons.1 h with rfl | h
      · exact (hc hd).elim
      · obtain ⟨part, hpart, hmem⟩ := ih h
        rw [splitAll, if_pos hd]
        exact ⟨part, List.mem_cons_of_mem _ hpart, hmem⟩
    · obtain ⟨first, parts, hcs⟩ := exists_splitAll sep cs
      rw [splitAll_cons_of_ne hd hcs]
      rcases List.mem_cons.1 h with rfl | h
      · exact ⟨_, List.mem_cons_self, List.mem_cons_self⟩
      · obtain ⟨part, hpart, hmem⟩ := ih h
        rw [hcs] at hpart
        rcases List.mem_cons.1 hpart with rfl | hpart
        · exact ⟨_, List.mem_cons_self, List.mem_cons_of_mem _ hmem⟩
        · exact ⟨part, List.mem_cons_of_mem _ hpart, hmem⟩

/-! ### Forms -/

/-- The component that a text between brackets denotes, behind the name of a field. -/
inductive Denotes (check : List Char → Except SyntaxError Unit) (name : String) :
    List Char → Component → Prop
  | all {inside : List Char} (h : trim inside = ['*']) : Denotes check name inside (.arrayAll name)
  | offset {inside offset : List Char} (h : trim inside = '*' :: '+' :: offset)
      (hcheck : check offset = .ok ()) :
      Denotes check name inside (.arrayAllOffset name (String.ofList offset))
  | range {before after : List Char} {first last : Int64}
      (hfirst : readWord? (trim before) = some first)
      (hlast : readWord? (trim after) = some last) :
      Denotes check name (before ++ ':' :: after) (.arrayRange name first last)
  | values {inside : List Char} {indices : List Int64} (hcomma : ',' ∈ inside)
      (h : List.Forall₂ (fun part word => readWord? part = some word)
        ((splitAll ',' inside).map trim) indices) :
      Denotes check name inside (.arrayValues name indices)
  | index {inside : List Char} {word : Int64} (h : readWord? (trim inside) = some word) :
      Denotes check name inside (.arrayIndex name word)

theorem index_eq_ok {word : Int64} : index cs = .ok word ↔ readWord? cs = some word := by
  unfold index
  cases readWord? cs <;> simp

theorem mapM_index_eq_ok {parts : List (List Char)} {indices : List Int64} :
    (parts.mapM fun part => index (trim part)) = .ok indices ↔
      List.Forall₂ (fun part word => readWord? part = some word) (parts.map trim) indices := by
  rw [List.forall₂_map_left_iff]
  constructor
  · exact fun h => (mapM_eq_ok h).imp fun _ _ => index_eq_ok.1
  · exact fun h => mapM_of_forall₂ (h.imp fun _ _ => index_eq_ok.2)

/-- A text that is read in brackets denotes what is read. -/
theorem denotes_of_bracket {segment : List Char}
    (h : bracket check name segment (trim inside) = .ok component) :
    Denotes check name inside component := by
  unfold bracket at h
  split at h
  next hall =>
    cases h
    exact .all hall
  next offset hoffset =>
    split at h
    next hcheck =>
      cases h
      exact .offset hoffset hcheck
    next => cases h
  next =>
    split at h
    next before after hsplit =>
      split at h
      next first last hfirst hlast =>
        cases h
        obtain ⟨htrim, -⟩ := splitFirst?_eq_some.1 hsplit
        obtain ⟨front, back, hinside, hfront, hback⟩ := exists_trim inside
        have hwhole : inside = (front ++ before) ++ ':' :: (after ++ back) := by
          rw [hinside, htrim]
          simp
        rw [hwhole]
        refine .range ?_ ?_
        · rwa [trim_blanks_append hfront]
        · rwa [trim_append_blanks hback]
      next => cases h
    next =>
      split at h
      next hcomma =>
        obtain ⟨indices, hindices, rfl⟩ := map_eq_ok.1 h
        rw [mapM_index_eq_ok, map_trim_splitAll_trim (by decide)] at hindices
        exact .values ((mem_trim_iff (by decide)).1 (List.contains_iff_mem.1 hcomma)) hindices
      next =>
        obtain ⟨word, hword, rfl⟩ := map_eq_ok.1 h
        exact .index (index_eq_ok.1 hword)

/-- Without a star, a text in brackets is a range or a list of indices. -/
theorem bracket_of_starless (h : '*' ∉ inside) (segment : List Char) :
    bracket check name segment inside =
      match splitFirst? ':' inside with
      | some (first, last) =>
        match Text.readWord? (Text.trim first), Text.readWord? (Text.trim last) with
        | some first, some last => .ok (.arrayRange name first last)
        | _, _ => .error (.invalidRange (String.ofList segment))
      | none =>
        if inside.contains ',' then
          ((splitAll ',' inside).mapM fun part => index (Text.trim part)).map
            (Component.arrayValues name)
        else (index inside).map (Component.arrayIndex name) := by
  unfold bracket
  split
  · exact (h List.mem_cons_self).elim
  · exact (h List.mem_cons_self).elim
  · rfl

/-- Behind a star and a plus sign, the text in brackets is an offset path. -/
theorem bracket_offset (segment offset : List Char) :
    bracket check name segment ('*' :: '+' :: offset) =
      (check offset).map fun _ => .arrayAllOffset name (String.ofList offset) := by
  unfold bracket
  split
  next heq => cases heq
  next heq =>
    cases heq
    cases check offset <;> rfl
  next _ hno => exact (hno offset rfl).elim

/-- In a list of words there is no character that stands in none of them. -/
theorem not_mem_of_forall₂ {indices : List Int64} (hc : IsForeign c) (hne : c ≠ ',')
    (h : List.Forall₂ (fun part word => readWord? part = some word)
      ((splitAll ',' inside).map trim) indices) : c ∉ inside := by
  intro hmem
  obtain ⟨part, hpart, hmem⟩ := exists_mem_splitAll hne hmem
  obtain ⟨word, hword⟩ := exists_ok_of_mem_mapM (mapM_index_eq_ok.2 h) hpart
  exact hc.not_mem (index_eq_ok.1 hword) hmem

/-- **Reading a text in brackets succeeds with what it denotes.** -/
theorem bracket_trim_eq_ok (segment : List Char) :
    bracket check name segment (trim inside) = .ok component ↔
      Denotes check name inside component := by
  refine ⟨denotes_of_bracket, fun h => ?_⟩
  cases h with
  | all h => rw [h]; rfl
  | offset h hcheck => rw [h, bracket_offset, hcheck]; rfl
  | @range before after _ _ hfirst hlast =>
    have hstar : '*' ∉ before ++ ':' :: after := by
      have hbefore : '*' ∉ before := IsForeign.not_mem (by decide) hfirst
      have hafter : '*' ∉ after := IsForeign.not_mem (by decide) hlast
      simp [hbefore, hafter]
    have hcolon : ':' ∉ trimStart before := by
      have hbefore : ':' ∉ before := IsForeign.not_mem (by decide) hfirst
      exact fun hmem => hbefore ((List.dropWhile_sublist isBlank).mem hmem)
    rw [bracket_of_starless (by rwa [mem_trim_iff (by decide)]),
      splitFirst?_eq_some.2 ⟨trim_append_cons (by decide) before after, hcolon⟩]
    simp only [trim_trimStart, trim_trimEnd, hfirst, hlast]
  | values hcomma h =>
    have hstar : '*' ∉ inside := not_mem_of_forall₂ (by decide) (by decide) h
    have hcolon : ':' ∉ inside := not_mem_of_forall₂ (by decide) (by decide) h
    rw [← mem_trim_iff (by decide)] at hstar hcolon hcomma
    rw [← map_trim_splitAll_trim (by decide), ← mapM_index_eq_ok] at h
    rw [bracket_of_starless hstar, splitFirst?_eq_none hcolon]
    simp only [List.contains_iff_mem.2 hcomma, if_true, h, Except.map]
  | index h =>
    have hforeign {c : Char} (hc : IsForeign c) : c ∉ trim inside := by
      rw [mem_trim_iff hc.1]
      exact hc.not_mem h
    rw [bracket_of_starless (hforeign (by decide)), splitFirst?_eq_none (hforeign (by decide)),
      index_eq_ok.2 h]
    simp [hforeign (show IsForeign ',' by decide), Except.map]

/-- A segment with brackets is read by what stands in them. -/
theorem segment_of_brackets {field : List Char} (h : '[' ∉ field) :
    segment check (field ++ '[' :: (inside ++ [']'])) = .ok component ↔
      Denotes check (String.ofList field) inside component := by
  have hopen : '[' ∈ field ++ '[' :: (inside ++ [']']) := by simp
  have hstar : field ++ '[' :: (inside ++ [']']) ≠ ['*'] := by
    intro heq
    rw [heq] at hopen
    exact absurd hopen (by decide)
  rw [segment, if_neg hstar, if_neg (fun hno => hno.1 (List.contains_iff_mem.2 hopen)),
    splitFirst?_eq_some.2 ⟨rfl, h⟩]
  simp only [List.getLast?_concat, if_true, List.dropLast_concat]
  exact bracket_trim_eq_ok _

/-- An accepted segment is a star, the name of a field, or a name in front of brackets that close at
its end. -/
theorem segment_cases (h : segment check cs = .ok component) :
    cs = ['*'] ∧ component = .wildcard ∨
      cs ≠ ['*'] ∧ Bracketless cs ∧ component = .field (String.ofList cs) ∨
      ∃ field inside, cs = field ++ '[' :: (inside ++ [']']) ∧ '[' ∉ field ∧
        Denotes check (String.ofList field) inside component := by
  unfold segment at h
  split at h
  next hstar =>
    cases h
    exact .inl ⟨hstar, rfl⟩
  next hstar =>
    split at h
    next hnone =>
      cases h
      simp only [List.contains_iff_mem] at hnone
      exact .inr (.inl ⟨hstar, hnone, rfl⟩)
    next =>
      split at h
      next field rest hsplit =>
        split at h
        next hlast =>
          obtain ⟨hcs, hfield⟩ := splitFirst?_eq_some.1 hsplit
          obtain ⟨inside, rfl⟩ := List.getLast?_eq_some_iff.1 hlast
          rw [List.dropLast_concat] at h
          exact .inr (.inr ⟨field, inside, hcs, hfield, denotes_of_bracket h⟩)
        next => cases h
      next => cases h

end Path

end Reshape
