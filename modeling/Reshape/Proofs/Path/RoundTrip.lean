import Reshape.Proofs.Path.Brackets
import Reshape.Proofs.Path.Printable

/-!
# Rendering and reading back

The expression of a printable list of components is read as this list. Its segments are the texts of
the components without the dots in front, and each of them is read as its component.

* `Component.body` and `Path.renderFrom_true`, an expression as segments with dots between them;
* `Path.segment_body`, which reads a segment back;
* `Path.parse_render_of_printable`;
* `Path.parse_render_of_parse`, what has been read is read again;
* `Path.parse_render_iff_printable`, the lists that are read back are those that can be read at all;
* `Path.parse_offset_iff`, the expressions that can stand as offset paths.
-/

namespace Reshape

/-- The segment of a component. -/
def Component.body (c : Component) : List Char := Path.dropDot c.chars

namespace Path

variable {c : Component} {cs inside : List Char} {name : String} {components : List Component}
  {check : List Char → Except SyntaxError Unit}

/-! ### Texts in brackets -/

/-- A text in brackets that is read as a component. -/
structure ReadsInside (name : String) (inside : List Char) (c : Component) : Prop where
  uncut : Uncut true inside
  denotes : Denotes checkOffset name inside c

theorem readWord?_trim_wordText (word : Int64) :
    Text.readWord? (Text.trim (Text.wordText word)) = some word := by
  rw [Text.trim_wordText, Text.readWord?_wordText]

theorem readsInside_index (name : String) (word : Int64) :
    ReadsInside name (Text.wordText word) (.arrayIndex name word) where
  uncut := uncut_of_dotless (Text.not_mem_wordText (by decide) (by decide))
  denotes := .index (readWord?_trim_wordText word)

theorem readsInside_range (name : String) (first last : Int64) :
    ReadsInside name (Text.wordText first ++ ':' :: Text.wordText last)
      (.arrayRange name first last) where
  uncut := by
    refine uncut_of_dotless ?_
    simp [Text.not_mem_wordText]
  denotes := .range (readWord?_trim_wordText first) (readWord?_trim_wordText last)

theorem not_mem_indexList {x : Char} {indices : List Int64} (hcomma : x ≠ ',') (hsign : x ≠ '-')
    (hdigit : x.isDigit = false) : x ∉ Component.indexList indices := by
  intro h
  rcases Component.mem_indexList h with hx | ⟨index, _, hx⟩
  · exact hcomma hx
  · exact Text.not_mem_wordText hsign hdigit hx

/-- A list of at least two indices has a comma, which tells it from a single one. -/
theorem readsInside_values (name : String) {indices : List Int64} (h : 2 ≤ indices.length) :
    ReadsInside name (Component.indexList indices) (.arrayValues name indices) where
  uncut := uncut_of_dotless (not_mem_indexList (by decide) (by decide) (by decide))
  denotes := by
    have hcomma : ',' ∈ Component.indexList indices := by
      match indices, h with
      | first :: second :: rest, _ => simp [Component.indexList_cons_cons]
    have hne : indices ≠ [] := List.ne_nil_of_length_pos (by omega)
    refine .values hcomma ?_
    rw [Component.splitAll_indexList hne, List.forall₂_map_left_iff, List.forall₂_map_left_iff,
      List.forall₂_same]
    exact fun word _ => readWord?_trim_wordText word

theorem readsInside_all (name : String) : ReadsInside name ['*'] (.arrayAll name) where
  uncut := uncut_of_dotless (by decide)
  denotes := .all (by decide)

theorem readsInside_offset (name : String) {offset : String} (h : IsOffset offset) :
    ReadsInside name ('*' :: '+' :: offset.toList) (.arrayAllOffset name offset) where
  uncut := ⟨nofun, nofun, dotsInside_iff.1 h.dots⟩
  denotes := by
    have htrimmed : Text.trim ('*' :: '+' :: offset.toList) = '*' :: '+' :: offset.toList := by
      refine Text.trim_eq_self (fun c hc => ?_) fun c hc => ?_
      · cases hc
        decide
      · rw [List.getLast?_cons_cons, List.getLast?_cons] at hc
        cases hlast : offset.toList.getLast? with
        | none =>
          rw [hlast] at hc
          cases hc
          decide
        | some last =>
          rw [hlast] at hc
          cases hc
          exact h.trimmed _ hlast
    obtain ⟨components, hparse⟩ := h.accepted
    have hcheck : checkOffset offset.toList = .ok () := by
      rw [checkOffset, String.ofList_toList, hparse]
      rfl
    rw [← String.ofList_toList (s := offset)]
    exact .offset (by rwa [String.ofList_toList]) hcheck

/-! ### Segments -/

/-- The segment of a component with brackets. -/
def withBrackets (name : String) (inside : List Char) : List Char :=
  name.toList ++ '[' :: (inside ++ [']'])

theorem isSegment_withBrackets (hname : IsArrayName name) (h : Uncut true inside) :
    IsSegment (withBrackets name inside) := by
  have hopened : insideBehind false name.toList = false := insideBehind_of_not_mem hname.unopened
  refine ⟨by simp [withBrackets], ?_, ?_⟩
  · rw [withBrackets, uncut_append, hopened]
    exact ⟨uncut_of_dotless hname.dotless, nofun, uncut_append.2 ⟨h, nofun, trivial⟩⟩
  · rw [withBrackets, insideBehind_append, insideBehind_cons, insideBehind_append]
    rfl

/-- Brackets that are read make a segment that is read. -/
theorem segment_withBrackets (hname : IsArrayName name) (h : ReadsInside name inside c) :
    segment checkOffset (withBrackets name inside) = .ok c := by
  rw [withBrackets, segment_of_brackets hname.unopened, String.ofList_toList]
  exact h.denotes

theorem dropDot_withBrackets (hname : IsArrayName name) :
    dropDot (withBrackets name inside) = withBrackets name inside := by
  unfold dropDot
  split
  next rest hcs =>
    cases hchars : name.toList with
    | nil =>
      rw [withBrackets, hchars] at hcs
      cases hcs
    | cons first chars =>
      rw [withBrackets, hchars] at hcs
      cases hcs
      exact (hname.dotless (by simp [hchars])).elim
  next => rfl

/-- A component that is spelled by a dot and a segment. -/
structure Spelled (c : Component) : Prop where
  isSegment : IsSegment c.body
  read : segment checkOffset c.body = .ok c
  dotted : (if c.hasOwnDot then c.chars else '.' :: c.chars) = '.' :: c.body

theorem spelled_of_readsInside (hname : IsArrayName name) (h : ReadsInside name inside c)
    (hchars : c.chars = withBrackets name inside) (hdot : c.hasOwnDot = false) : Spelled c := by
  have hbody : c.body = withBrackets name inside := by
    rw [Component.body, hchars, dropDot_withBrackets hname]
  constructor
  · rw [hbody]
    exact isSegment_withBrackets hname h.uncut
  · rw [hbody]
    exact segment_withBrackets hname h
  · rw [hdot, hbody, hchars]
    rfl

theorem spelled_field (h : (Component.field name).Printable) : Spelled (.field name) := by
  obtain ⟨hempty, hstar, hdot, hopen, hclose⟩ := h
  refine ⟨⟨by simpa [Component.body, Component.chars, dropDot] using hempty,
    uncut_of_dotless hdot, insideBehind_of_not_mem hopen⟩, ?_, rfl⟩
  have hchars : name.toList ≠ ['*'] := fun heq => hstar (String.toList_inj.1 heq)
  show segment checkOffset name.toList = _
  rw [segment, if_neg hchars, if_pos (by simp [hopen, hclose]), String.ofList_toList]

/-- Each kind of component is read from its own segment. -/
theorem spelled_of_printable (h : c.Printable) (hc : c ≠ .recursiveDescent) : Spelled c := by
  cases c with
  | field name => exact spelled_field h
  | arrayIndex name word => exact spelled_of_readsInside h (readsInside_index name word) rfl rfl
  | arrayAll name => exact spelled_of_readsInside h (readsInside_all name) rfl rfl
  | arrayAllOffset name offset =>
    exact spelled_of_readsInside h.1 (readsInside_offset name h.2) rfl rfl
  | arrayRange name first last =>
    refine spelled_of_readsInside h (readsInside_range name first last) ?_ rfl
    simp [Component.chars, withBrackets]
  | arrayValues name indices =>
    exact spelled_of_readsInside h.1 (readsInside_values name h.2) rfl rfl
  | wildcard => exact ⟨⟨nofun, ⟨nofun, trivial⟩, rfl⟩, rfl, rfl⟩
  | recursiveDescent => exact (hc rfl).elim

/-- A descent has no segment. -/
theorem Spelled.ne_recursiveDescent (h : Spelled c) : c ≠ .recursiveDescent := by
  rintro rfl
  exact absurd (h.isSegment.uncut.1 rfl) (by decide)

/-! ### Whole expressions -/

theorem renderFrom_true_cons (h : Spelled c) (components : List Component) :
    renderFrom true (c :: components) = c.body ++ renderFrom false components := by
  rw [renderFrom, if_pos rfl, beq_eq_false_iff_ne.2 h.ne_recursiveDescent]
  rfl

theorem renderFrom_false_cons (h : Spelled c) (components : List Component) :
    renderFrom false (c :: components) = '.' :: renderFrom true (c :: components) := by
  simp [renderFrom, h.dotted, Component.body]

/-- Behind a descent, there are dots between the segments and nowhere else. -/
theorem renderFrom_true (h : ∀ c ∈ components, Spelled c) :
    renderFrom true components = ['.'].intercalate (components.map Component.body) := by
  induction components with
  | nil => rfl
  | cons c components ih =>
    have hrest : ∀ d ∈ components, Spelled d := fun d hd => h d (List.mem_cons_of_mem c hd)
    rw [renderFrom_true_cons (h c List.mem_cons_self)]
    cases components with
    | nil => simp [renderFrom]
    | cons d components =>
      rw [renderFrom_false_cons (hrest d List.mem_cons_self), ih hrest, List.map_cons,
        List.map_cons, List.map_cons, List.intercalate_cons_cons, List.append_assoc,
        List.singleton_append]

/-- The segments behind a descent are read back. -/
theorem mapM_segment_renderFrom_true (h : ∀ c ∈ components, Spelled c) :
    (segments (renderFrom true components)).mapM (segment checkOffset) = .ok components := by
  have hsegments : segments (renderFrom true components) = components.map Component.body := by
    rw [renderFrom_true h]
    refine segments_intercalate fun part hpart => ?_
    obtain ⟨c, hc, rfl⟩ := List.mem_map.1 hpart
    exact (h c hc).isSegment
  rw [hsegments]
  exact mapM_map_eq_ok fun c hc => (h c hc).read

/-- What is behind the root sign is cut and read. -/
theorem parse_root (rest : List Char) :
    parse (String.ofList ('$' :: rest)) =
      ((segments (splitDescent rest).2).mapM (segment checkOffset)).map fun components =>
        if (splitDescent rest).1 then .recursiveDescent :: components else components := by
  rw [parse_eq, String.toList_ofList]
  exact if_neg (by simp [show Text.isBlank '$' = false by decide])

/-- A dot in front of a segment is no descent. -/
theorem splitDescent_dot (h : IsSegment cs) (rest : List Char) :
    splitDescent ('.' :: (cs ++ rest)) = (false, cs ++ rest) := by
  obtain ⟨first, behind, rfl⟩ := List.exists_cons_of_ne_nil h.ne_nil
  have hfirst : first ≠ '.' := fun hdot => absurd (h.uncut.1 hdot) (by decide)
  unfold splitDescent
  split
  next heq =>
    cases heq
    exact (hfirst rfl).elim
  next heq =>
    cases heq
    rfl
  next _ hno => exact (hno _ rfl).elim

/-- **Printable components are read back from their expression.** -/
theorem parse_render_of_printable (h : Printable components) :
    parse (render components) = .ok components := by
  rw [render, parse_root]
  cases components with
  | nil => rfl
  | cons first components =>
    have hrest : ∀ c ∈ components, Spelled c := fun c hc =>
      spelled_of_printable (h.components c (List.mem_cons_of_mem _ hc)) fun heq =>
        h.descent (by rwa [heq] at hc)
    by_cases hfirst : first = .recursiveDescent
    · subst hfirst
      show ((segments (renderFrom true components)).mapM (segment checkOffset)).map _ = _
      rw [mapM_segment_renderFrom_true hrest]
      rfl
    · have hhead : Spelled first :=
        spelled_of_printable (h.components first List.mem_cons_self) hfirst
      have hall : ∀ c ∈ first :: components, Spelled c := List.forall_mem_cons.2 ⟨hhead, hrest⟩
      have hdescent := splitDescent_dot hhead.isSegment (renderFrom false components)
      rw [← renderFrom_true_cons hhead] at hdescent
      rw [renderFrom_false_cons hhead, hdescent, mapM_segment_renderFrom_true hall]
      rfl

/-- **Reading, rendering and reading again is stable.** What an expression is read as is read again
from its own expression. -/
theorem parse_render_of_parse {text : String} (h : parse text = .ok components) :
    parse (render components) = .ok components :=
  parse_render_of_printable (printable_of_parse h)

/-- An expression that starts with a descent, with a range that has signs, zeros and blanks in it,
and with an offset path that has an offset path. -/
theorem parse_render_of_nested_offset :
    parse "..a[ +01 : -2 ]..[ *+$..b.c[*+d] ].*" = .ok
        [.recursiveDescent, .arrayRange "a" 1 (-2), .arrayAllOffset "" "$..b.c[*+d]", .wildcard] ∧
      parse (render
        [.recursiveDescent, .arrayRange "a" 1 (-2), .arrayAllOffset "" "$..b.c[*+d]", .wildcard]) =
          .ok [.recursiveDescent, .arrayRange "a" 1 (-2), .arrayAllOffset "" "$..b.c[*+d]",
            .wildcard] := by
  have hparse : parse "..a[ +01 : -2 ]..[ *+$..b.c[*+d] ].*" = .ok
      [.recursiveDescent, .arrayRange "a" 1 (-2), .arrayAllOffset "" "$..b.c[*+d]", .wildcard] := by
    decide +kernel
  exact ⟨hparse, parse_render_of_parse hparse⟩

/-- **The lists of components that are read back are the printable ones**, and no other list is
ever read. -/
theorem parse_render_iff_printable (components : List Component) :
    (parse (render components) = .ok components ↔ Printable components) ∧
      ∀ text, parse text = .ok components → Printable components :=
  ⟨⟨printable_of_parse, parse_render_of_printable⟩, fun _ => printable_of_parse⟩

/-- A name in front of brackets may have a closing bracket in it. -/
theorem parse_render_iff_of_closing_bracket :
    parse "a]b[*+c]" = .ok [.arrayAllOffset "a]b" "c"] ∧
      Printable [.arrayAllOffset "a]b" "c"] ∧
      parse (render [.arrayAllOffset "a]b" "c"]) = .ok [.arrayAllOffset "a]b" "c"] := by
  have hparse : parse "a]b[*+c]" = .ok [.arrayAllOffset "a]b" "c"] := by decide +kernel
  obtain ⟨hiff, hall⟩ := parse_render_iff_printable [.arrayAllOffset "a]b" "c"]
  have hprintable : Printable [.arrayAllOffset "a]b" "c"] := hall _ hparse
  exact ⟨hparse, hprintable, hiff.2 hprintable⟩

/-! ### Offset paths -/

/-- **An expression can stand as an offset path if no dot of it cuts there**, and only then. A
closing bracket of the offset path ends the brackets around it, too, as far as dots are concerned,
so a dot behind it cuts unless another bracket is opened in front of the dot. -/
theorem parse_offset_iff {field offset : String} (hfield : IsArrayName field)
    (haccepted : ∃ components, parse offset = .ok components)
    (htrimmed : ∀ c, offset.toList.getLast? = some c → Text.isBlank c = false) :
    parse ("$." ++ field ++ "[*+" ++ offset ++ "]") = .ok [.arrayAllOffset field offset] ↔
      DotsInside offset.toList := by
  have hrender : "$." ++ field ++ "[*+" ++ offset ++ "]" =
      render [.arrayAllOffset field offset] := by
    rw [← String.toList_inj]
    simp [render, renderFrom, Component.hasOwnDot, Component.chars]
  rw [hrender]
  constructor
  · intro h
    have hprintable : Component.Printable (.arrayAllOffset field offset) :=
      (printable_of_parse h).components _ (List.mem_singleton_self _)
    exact hprintable.2.dots
  · intro hdots
    refine parse_render_of_printable ⟨List.not_mem_nil, List.forall_mem_singleton.2 ?_⟩
    exact ⟨hfield, haccepted, htrimmed, hdots⟩

/-- An offset path with an offset path of its own. All dots are in front of the closing brackets. -/
theorem parse_offset_iff_of_nested :
    IsArrayName "f" ∧ parse "$.a[*+$.b.c[0]]" = .ok [.arrayAllOffset "a" "$.b.c[0]"] ∧
      DotsInside "$.a[*+$.b.c[0]]".toList ∧
      parse "$.f[*+$.a[*+$.b.c[0]]]" = .ok [.arrayAllOffset "f" "$.a[*+$.b.c[0]]"] := by
  have hfield : IsArrayName "f" := ⟨by decide, by decide⟩
  have haccepted : parse "$.a[*+$.b.c[0]]" = .ok [.arrayAllOffset "a" "$.b.c[0]"] := by
    decide +kernel
  have hdots : DotsInside "$.a[*+$.b.c[0]]".toList :=
    dotsInside_iff.2 (by simp [Uncut, insideAfter])
  have hlast : "$.a[*+$.b.c[0]]".toList.getLast? = some ']' := by decide
  refine ⟨hfield, haccepted, hdots, (parse_offset_iff hfield ⟨_, haccepted⟩ fun c hc => ?_).2 hdots⟩
  cases hlast.symm.trans hc
  rfl

/-- An expression with a dot behind a closing bracket cannot stand as an offset path. -/
theorem parse_offset_cut :
    (∃ components, parse "$.a[0].b" = .ok components) ∧
      Text.trim "$.a[0].b".toList = "$.a[0].b".toList ∧
      '.' ∉ "f".toList ∧ '[' ∉ "f".toList ∧ ']' ∉ "f".toList ∧
      parse ("$." ++ "f" ++ "[*+" ++ "$.a[0].b" ++ "]") =
        .error (.invalidArrayNotation "a[0") ∧
      parse ("$." ++ "f" ++ "[*+" ++ "$.a[0].b" ++ "]") ≠
        .ok [.arrayAllOffset "f" "$.a[0].b"] := by
  have haccepted : parse "$.a[0].b" = .ok [.arrayIndex "a" 0, .field "b"] := by decide +kernel
  have hrefused : parse ("$." ++ "f" ++ "[*+" ++ "$.a[0].b" ++ "]") =
      .error (.invalidArrayNotation "a[0") := by decide +kernel
  refine ⟨⟨_, haccepted⟩, by decide, by decide, by decide, by decide, hrefused, ?_⟩
  rw [hrefused]
  exact nofun

end Path

end Reshape
