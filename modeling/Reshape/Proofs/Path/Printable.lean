import Reshape.Proofs.Path.Brackets

/-!
# Lists of components that expressions denote

An expression cannot spell every list of components. A dot or a bracket in a name is read as a dot
or a bracket of the expression, and a list of one index is read as this index.

* `Component.Printable` and `Path.Printable`, what a component and a list have to keep to;
* `Path.printable_of_segment` and `Path.printable_of_parse`, all that is read keeps to it.
-/

namespace Reshape

namespace Path

/-- A name in front of brackets. -/
structure IsArrayName (name : String) : Prop where
  dotless : '.' ∉ name.toList
  unopened : '[' ∉ name.toList

/-- An offset path between its brackets: an expression without a blank at its end whose dots do not
cut. -/
structure IsOffset (offset : String) : Prop where
  accepted : ∃ components, parse offset = .ok components
  trimmed : ∀ c, offset.toList.getLast? = some c → Text.isBlank c = false
  dots : DotsInside offset.toList

end Path

/-- A component that some expression spells. -/
def Component.Printable : Component → Prop
  | field name =>
    name ≠ "" ∧ name ≠ "*" ∧ '.' ∉ name.toList ∧ '[' ∉ name.toList ∧ ']' ∉ name.toList
  | arrayIndex name _ => Path.IsArrayName name
  | arrayAll name => Path.IsArrayName name
  | arrayAllOffset name offset => Path.IsArrayName name ∧ Path.IsOffset offset
  | arrayRange name _ _ => Path.IsArrayName name
  | arrayValues name indices => Path.IsArrayName name ∧ 2 ≤ indices.length
  | wildcard => True
  | recursiveDescent => True

namespace Path

/-- A list of printable components, with a descent in front of all others only. -/
structure Printable (components : List Component) : Prop where
  descent : .recursiveDescent ∉ components.tail
  components : ∀ component ∈ components, component.Printable

variable {c : Component} {cs : List Char} {name : String} {components : List Component}

/-! ### What is read -/

theorem checkOffset_eq_ok {offset : List Char} (h : checkOffset offset = .ok ()) :
    ∃ components, parse (String.ofList offset) = .ok components := by
  obtain ⟨components, hparse, _⟩ := map_eq_ok.1 h
  exact ⟨components, hparse⟩

/-- Blanks do not move the scan, so a trimmed text is cut no more than the whole one. -/
theorem Uncut.trim {inside : Bool} (h : Uncut inside cs) : Uncut inside (Text.trim cs) := by
  obtain ⟨front, back, hcs, hfront, -⟩ := Text.exists_trim cs
  rw [hcs, uncut_blanks_append hfront] at h
  exact (uncut_append.1 h).1

/-- An offset path that is accepted between brackets without a dot that cuts. -/
theorem isOffset_of_trim {inside offset : List Char} (huncut : Uncut true inside)
    (h : Text.trim inside = '*' :: '+' :: offset) (hcheck : checkOffset offset = .ok ()) :
    IsOffset (String.ofList offset) where
  accepted := checkOffset_eq_ok hcheck
  trimmed c hc := by
    have hlast : (Text.trim inside).getLast? = some c := by
      rw [String.toList_ofList] at hc
      rw [h, List.getLast?_cons, List.getLast?_cons, hc]
      rfl
    exact Text.not_isBlank_of_getLast?_trim hlast
  dots := by
    have htrim := huncut.trim
    rw [h] at htrim
    rw [String.toList_ofList, dotsInside_iff]
    exact htrim.2.2

/-- What a text in brackets denotes is printable, if none of its dots cuts. -/
theorem printable_of_denotes {inside : List Char} (hname : IsArrayName name)
    (huncut : Uncut true inside) (h : Denotes checkOffset name inside c) :
    c.Printable ∧ c ≠ .recursiveDescent := by
  cases h with
  | all => exact ⟨hname, nofun⟩
  | offset htrim hcheck => exact ⟨⟨hname, isOffset_of_trim huncut htrim hcheck⟩, nofun⟩
  | range => exact ⟨hname, nofun⟩
  | values hcomma hwords =>
    have htwo := two_le_length_splitAll hcomma
    rw [← List.length_map (f := Text.trim), hwords.length_eq] at htwo
    exact ⟨⟨hname, htwo⟩, nofun⟩
  | index => exact ⟨hname, nofun⟩

/-- A segment is read as a printable component. -/
theorem printable_of_segment (hne : cs ≠ []) (huncut : Uncut false cs)
    (h : segment checkOffset cs = .ok c) : c.Printable ∧ c ≠ .recursiveDescent := by
  obtain ⟨-, rfl⟩ | ⟨hstar, hnone, rfl⟩ | ⟨field, inside, rfl, hopen, hd⟩ := segment_cases h
  · exact ⟨trivial, nofun⟩
  · refine ⟨⟨?_, ?_, ?_⟩, nofun⟩
    · exact fun hempty => hne (by simpa using congrArg String.toList hempty)
    · exact fun hname => hstar (by simpa using congrArg String.toList hname)
    · rw [String.toList_ofList]
      exact ⟨huncut.dotless hnone.1, hnone⟩
  · obtain ⟨hfield, _, hrest⟩ := uncut_append.1 huncut
    have hname : IsArrayName (String.ofList field) := by
      constructor
      · rw [String.toList_ofList]
        exact hfield.dotless hopen
      · rwa [String.toList_ofList]
    exact printable_of_denotes hname (uncut_append.1 hrest).1 hd

/-- **Every list of components that is read is printable.** -/
theorem printable_of_parse {text : String} (h : parse text = .ok components) :
    Printable components := by
  rw [parse_eq] at h
  split at h
  · cases h
  · obtain ⟨parts, hparts, rfl⟩ := map_eq_ok.1 h
    have hall : ∀ c ∈ parts, c.Printable ∧ c ≠ .recursiveDescent := by
      intro c hc
      obtain ⟨cs, hcs, hsegment⟩ := exists_of_mem_mapM hparts hc
      obtain ⟨hne, huncut⟩ := uncut_of_mem_segments hcs
      exact printable_of_segment hne huncut hsegment
    have hdescent : .recursiveDescent ∉ parts := fun hmem => (hall _ hmem).2 rfl
    split
    · exact ⟨hdescent, List.forall_mem_cons.2 ⟨trivial, fun c hc => (hall c hc).1⟩⟩
    · exact ⟨fun hmem => hdescent (List.mem_of_mem_tail hmem), fun c hc => (hall c hc).1⟩

end Path

end Reshape
