import Reshape.Proofs.Except
import Reshape.Proofs.Path.Cut
import Reshape.Proofs.Path.Pieces

/-!
# Offset paths of any depth

The length of an expression bounds how deep its offset paths nest, since an offset path is shorter
than the segment that it stands in. So reading does not depend on the bound.

* `Path.checkOffset`, whether an offset path is an expression;
* `Path.parseWithin_eq`, the same result under all bounds beyond the length;
* `Path.parse_eq`, the equation of `parse` without a bound.
-/

namespace Reshape.Path

/-- Whether an offset path is an expression. -/
def checkOffset (offset : List Char) : Except SyntaxError Unit :=
  (parse (String.ofList offset)).map fun _ => ()

variable {check check' : List Char → Except SyntaxError Unit}

/-- Brackets check no text as long as the one in them. -/
theorem bracket_congr {inside : List Char}
    (h : ∀ offset, offset.length < inside.length → check offset = check' offset)
    (field : String) (segment : List Char) :
    bracket check field segment inside = bracket check' field segment inside := by
  unfold bracket
  split
  · rfl
  · rename_i offset
    rw [h offset (Nat.lt_succ_of_lt (Nat.lt_succ_self _))]
  · rfl

theorem segment_congr {cs : List Char}
    (h : ∀ offset, offset.length < cs.length → check offset = check' offset) :
    segment check cs = segment check' cs := by
  unfold segment
  split
  · rfl
  · split
    · rfl
    · split
      · rename_i field inside hsplit
        obtain ⟨rfl, _⟩ := splitFirst?_eq_some.1 hsplit
        have hshort : (Text.trim inside.dropLast).length ≤ inside.length :=
          (Text.length_trim_le _).trans (by simp)
        simp only [List.length_append, List.length_cons] at h
        rw [bracket_congr fun offset hoffset => h offset (by omega)]
      · rfl

theorem length_dropRoot_le (cs : List Char) : (dropRoot cs).length ≤ cs.length := by
  unfold dropRoot
  split
  · exact Nat.le_succ _
  · exact Nat.le_refl _

theorem length_splitDescent_le (cs : List Char) : (splitDescent cs).2.length ≤ cs.length := by
  unfold splitDescent
  split
  · exact Nat.le_succ_of_le (Nat.le_succ _)
  · exact Nat.le_succ _
  · exact Nat.le_refl _

/-- **The bound on the nesting is never reached.** All bounds beyond the length give one result. -/
theorem parseWithin_eq {depth depth' : Nat} {cs : List Char} (h : cs.length < depth)
    (h' : cs.length < depth') : parseWithin depth cs = parseWithin depth' cs := by
  induction depth generalizing depth' cs with
  | zero => exact (Nat.not_lt_zero _ h).elim
  | succ depth ih =>
    cases depth' with
    | zero => exact (Nat.not_lt_zero _ h').elim
    | succ depth' =>
      have hrest : (splitDescent (dropRoot cs)).2.length ≤ cs.length :=
        (length_splitDescent_le _).trans (length_dropRoot_le cs)
      have hsegments : ∀ part ∈ segments (splitDescent (dropRoot cs)).2,
          segment (fun offset => (parseWithin depth offset).map fun _ => ()) part =
            segment (fun offset => (parseWithin depth' offset).map fun _ => ()) part := by
        intro part hmem
        have hpart := length_le_of_mem_segments hmem
        refine segment_congr fun offset hoffset => ?_
        have hdepth : offset.length < depth := by omega
        have hdepth' : offset.length < depth' := by omega
        show (parseWithin depth offset).map _ = (parseWithin depth' offset).map _
        rw [ih hdepth hdepth']
      rw [parseWithin, parseWithin]
      simp only [mapM_congr hsegments]

/-- The equation of `parse`, in which offset paths are checked by `parse` itself. -/
theorem parse_eq (text : String) :
    parse text =
      if text.toList.all Text.isBlank then .error .empty
      else
        ((segments (splitDescent (dropRoot text.toList)).2).mapM (segment checkOffset)).map
          fun components =>
            if (splitDescent (dropRoot text.toList)).1 then .recursiveDescent :: components
            else components := by
  have hsegments : ∀ part ∈ segments (splitDescent (dropRoot text.toList)).2,
      segment (fun offset => (parseWithin text.length offset).map fun _ => ()) part =
        segment checkOffset part := by
    intro part hmem
    have hpart := length_le_of_mem_segments hmem
    have hrest := (length_splitDescent_le _).trans (length_dropRoot_le text.toList)
    refine segment_congr fun offset hoffset => ?_
    rw [String.length_toList] at hrest
    have hdepth : offset.length < text.length := by omega
    have hdepth' : offset.length < (String.ofList offset).length + 1 := by simp
    rw [checkOffset, parse, String.toList_ofList, parseWithin_eq hdepth hdepth']
  rw [parse, parseWithin]
  simp only [mapM_congr hsegments]

end Reshape.Path
