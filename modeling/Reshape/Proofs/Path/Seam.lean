import Reshape.Proofs.Path.Brackets

/-!
# Two expressions with a dot between them

A dot behind an accepted expression cuts, whatever follows it, because the expression ends outside
brackets. So an expression is read piece by piece.

* `Path.insideBehind_of_segment`, an accepted segment ends outside brackets;
* `Path.insideBehind_of_segments`, and so does a text of which all segments are accepted;
* `Path.segments_append_dot`, the segments around a dot behind such a text;
* `Path.parse_append_dot`, the components of two expressions with a dot between them.
-/

namespace Reshape.Path

variable {inside : Bool} {cs rest part : List Char} {parts : List (List Char)}
variable {check : List Char → Except SyntaxError Unit} {component : Component}

/-! ### Where a text ends -/

/-- An accepted segment has no bracket or ends with a closing one. -/
theorem insideBehind_of_segment (h : segment check cs = .ok component) :
    insideBehind false cs = false := by
  obtain ⟨rfl, -⟩ | ⟨-, hnone, -⟩ | ⟨field, inner, rfl, -⟩ := segment_cases h
  · rfl
  · exact hnone.insideBehind
  · rw [insideBehind_append, insideBehind_cons, insideBehind_append]
    rfl

/-- A text ends where its last part ends, and between the parts there is no bracket. -/
theorem insideBehind_of_segmentsFrom (h : segmentsFrom inside cs = part :: parts)
    (hpart : insideBehind inside part = false)
    (hparts : ∀ later ∈ parts, insideBehind false later = false) :
    insideBehind inside cs = false := by
  induction cs generalizing inside part parts with
  | nil =>
    cases h
    exact hpart
  | cons c cs ih =>
    rcases cuts_or_not inside c with ⟨rfl, rfl⟩ | hc
    · obtain ⟨next, later, hcs⟩ := exists_segmentsFrom false cs
      rw [segmentsFrom_dot, hcs] at h
      cases h
      rw [List.forall_mem_cons] at hparts
      exact ih hcs hparts.1 hparts.2
    · obtain ⟨first, later, hcs⟩ := exists_segmentsFrom (insideAfter inside c) cs
      rw [segmentsFrom_cons hc hcs] at h
      cases h
      exact ih hcs hpart hparts

theorem insideBehind_of_segments (h : ∀ part ∈ segments cs, insideBehind false part = false) :
    insideBehind false cs = false := by
  obtain ⟨first, later, hcs⟩ := exists_segmentsFrom false cs
  have hall : ∀ part ∈ first :: later, insideBehind false part = false := by
    intro part hmem
    by_cases hnil : part = []
    · rw [hnil]
      rfl
    · exact h part (List.mem_filter.2 ⟨hcs ▸ hmem, by simpa using hnil⟩)
  rw [List.forall_mem_cons] at hall
  exact insideBehind_of_segmentsFrom hcs hall.1 hall.2

/-! ### The cut at the dot -/

theorem segmentsFrom_append_dot (h : insideBehind inside cs = false) :
    segmentsFrom inside (cs ++ '.' :: rest) = segmentsFrom inside cs ++ segmentsFrom false rest := by
  induction cs generalizing inside with
  | nil =>
    cases h
    exact segmentsFrom_dot
  | cons c cs ih =>
    rcases cuts_or_not inside c with ⟨rfl, rfl⟩ | hc
    · have hcs : insideBehind false cs = false := h
      rw [List.cons_append, segmentsFrom_dot, segmentsFrom_dot, ih hcs, List.cons_append]
    · obtain ⟨first, later, hcs⟩ := exists_segmentsFrom (insideAfter inside c) cs
      have hboth : segmentsFrom (insideAfter inside c) (cs ++ '.' :: rest) =
          first :: (later ++ segmentsFrom false rest) := by
        rw [ih h, hcs, List.cons_append]
      rw [List.cons_append, segmentsFrom_cons hc hboth, segmentsFrom_cons hc hcs, List.cons_append]

/-- **A dot behind a text that ends outside brackets cuts.** -/
theorem segments_append_dot (h : insideBehind false cs = false) :
    segments (cs ++ '.' :: rest) = segments cs ++ segments rest := by
  rw [segments, segmentsFrom_append_dot h, List.filter_append]
  rfl

/-! ### The start of the text -/

theorem dropRoot_append (hne : cs ≠ []) : dropRoot (cs ++ rest) = dropRoot cs ++ rest := by
  obtain ⟨c, cs, rfl⟩ := List.exists_cons_of_ne_nil hne
  by_cases hc : c = '$'
  · rw [hc]
    rfl
  · simp [dropRoot, hc]

/-- Behind the first name, and behind the two dots of a descent, nothing belongs to the start. -/
theorem splitDescent_append (hne : cs ≠ []) (hdot : cs ≠ ['.']) :
    splitDescent (cs ++ rest) = ((splitDescent cs).1, (splitDescent cs).2 ++ rest) := by
  obtain ⟨c, cs, rfl⟩ := List.exists_cons_of_ne_nil hne
  by_cases hc : c = '.'
  · subst hc
    have hcs : cs ≠ [] := fun hnil => hdot (by rw [hnil])
    obtain ⟨d, cs, rfl⟩ := List.exists_cons_of_ne_nil hcs
    by_cases hd : d = '.'
    · rw [hd]
      rfl
    · simp [splitDescent, hd]
  · simp [splitDescent, hc]

/-- Without a root sign and a dot in front, all of a text is cut into segments. -/
theorem splitDescent_dropRoot_of_head (h : ∀ c, cs.head? = some c → c ≠ '$' ∧ c ≠ '.') :
    splitDescent (dropRoot cs) = (false, cs) := by
  cases cs with
  | nil => rfl
  | cons c cs =>
    obtain ⟨hroot, hdot⟩ := h c rfl
    simp [dropRoot, splitDescent, hroot, hdot]

/-! ### Reading around a dot -/

variable {p q : String} {components : List Component}

/-- What an accepted expression is made from. -/
theorem exists_of_parse_eq_ok (h : parse p = .ok components) :
    p.toList.all Text.isBlank = false ∧
      ∃ found, (segments (splitDescent (dropRoot p.toList)).2).mapM (segment checkOffset) = .ok found ∧
        (if (splitDescent (dropRoot p.toList)).1 then .recursiveDescent :: found else found) =
          components := by
  rw [parse_eq] at h
  split at h
  next => cases h
  next hblank => exact ⟨by simpa using hblank, map_eq_ok.1 h⟩

/-- A text behind an expression with components belongs to none of the signs in front of it. -/
theorem splitDescent_dropRoot_append (hp : parse p = .ok components) (hne : components ≠ [])
    (rest : List Char) :
    splitDescent (dropRoot (p.toList ++ rest)) =
      ((splitDescent (dropRoot p.toList)).1, (splitDescent (dropRoot p.toList)).2 ++ rest) := by
  obtain ⟨hblank, found, hfound, hcomponents⟩ := exists_of_parse_eq_ok hp
  have htext : p.toList ≠ [] := by
    intro hnil
    rw [hnil] at hblank
    cases hblank
  have hshort : ∀ body, (splitDescent body).1 = false → segments (splitDescent body).2 = [] →
      dropRoot p.toList ≠ body := by
    intro body hdescent hsegments hbody
    rw [hbody, hsegments] at hfound
    cases hfound
    rw [hbody, hdescent] at hcomponents
    exact hne hcomponents.symm
  rw [dropRoot_append htext]
  exact splitDescent_append (hshort [] rfl rfl) (hshort ['.'] rfl rfl)

/-- **Reading is compositional.** Behind an expression with components and a dot, an expression that
starts with no sign is read as it is read alone: its components follow the others, and its error is
the error of the whole. -/
theorem parse_append_dot (hp : parse p = .ok components) (hne : components ≠ [])
    (hq : ∃ c ∈ q.toList, Text.isBlank c = false)
    (hhead : ∀ c, q.toList.head? = some c → c ≠ '$' ∧ c ≠ '.') :
    parse (p ++ "." ++ q) = (parse q).map (components ++ ·) := by
  have htext : (p ++ "." ++ q).toList = p.toList ++ '.' :: q.toList := by simp
  obtain ⟨c, hc, hblank⟩ := hq
  have hq : ¬ q.toList.all Text.isBlank = true := by
    intro hall
    rw [List.all_eq_true.1 hall c hc] at hblank
    cases hblank
  have hpq : ¬ (p.toList ++ '.' :: q.toList).all Text.isBlank = true := by
    intro hall
    rw [List.all_append, List.all_cons, Bool.and_eq_true, Bool.and_eq_true] at hall
    exact hq hall.2.2
  have hstart := splitDescent_dropRoot_append hp hne ('.' :: q.toList)
  obtain ⟨_, found, hfound, hcomponents⟩ := exists_of_parse_eq_ok hp
  have hends : insideBehind false (splitDescent (dropRoot p.toList)).2 = false := by
    refine insideBehind_of_segments fun part hmem => ?_
    obtain ⟨component, hpart⟩ := exists_ok_of_mem_mapM hfound hmem
    exact insideBehind_of_segment hpart
  rw [parse_eq, parse_eq, htext, if_neg hpq, if_neg hq, hstart, splitDescent_dropRoot_of_head hhead,
    segments_append_dot hends, mapM_append_of_ok hfound, exceptMap_map, exceptMap_map,
    ← hcomponents]
  congr 1
  funext behind
  by_cases hdescent : (splitDescent (dropRoot p.toList)).1 = true <;> simp [hdescent]

/-- An expression that starts with a descent and has dots inside its brackets, in front of one with
an empty segment and of one that is refused. -/
theorem parse_append_dot_of_offset :
    parse "..a[*+$.b.c[0]]" = .ok [.recursiveDescent, .arrayAllOffset "a" "$.b.c[0]"] ∧
      parse ("..a[*+$.b.c[0]]" ++ "." ++ "d[ 1:2 ]..*") =
        .ok [.recursiveDescent, .arrayAllOffset "a" "$.b.c[0]", .arrayRange "d" 1 2, .wildcard] ∧
      parse ("..a[*+$.b.c[0]]" ++ "." ++ "d.e[") = .error (.invalidArrayNotation "e[") := by
  have hp : parse "..a[*+$.b.c[0]]" = .ok [.recursiveDescent, .arrayAllOffset "a" "$.b.c[0]"] := by
    decide +kernel
  have hread : parse "d[ 1:2 ]..*" = .ok [.arrayRange "d" 1 2, .wildcard] := by decide +kernel
  have hrefused : parse "d.e[" = .error (.invalidArrayNotation "e[") := by decide +kernel
  refine ⟨hp, ?_, ?_⟩
  · rw [parse_append_dot hp (List.cons_ne_nil _ _) ⟨'d', by decide, by decide⟩ (by simp), hread]
    rfl
  · rw [parse_append_dot hp (List.cons_ne_nil _ _) ⟨'d', by decide, by decide⟩ (by simp), hrefused]
    rfl

end Reshape.Path
