import Mathlib.Data.List.Induction
import Reshape.Path.Parser

/-!
# The segments of an expression

Dots outside brackets cut an expression. Brackets do not nest here: a dot is inside if the nearest
bracket in front of it is an opening one.

* `Path.insideBehind`, whether a text ends inside brackets, and `Path.Uncut`, no dot outside them;
* `Path.segments_intercalate`, texts with dots between them are cut at these dots;
* `Path.uncut_of_mem_segments`, no segment can be cut again;
* `Path.dotsInside_iff`, the dots inside brackets by the brackets in front of them.
-/

namespace Reshape.Path

/-- Whether one more character leaves the scan inside brackets. -/
def insideAfter (inside : Bool) (c : Char) : Bool :=
  if c = '[' then true else if c = ']' then false else inside

/-- Whether a text ends inside brackets. -/
def insideBehind (inside : Bool) (cs : List Char) : Bool := cs.foldl insideAfter inside

/-- No dot of a text is outside brackets. -/
def Uncut : Bool → List Char → Prop
  | _, [] => True
  | inside, c :: rest => (c = '.' → inside = true) ∧ Uncut (insideAfter inside c) rest

instance Uncut.decidable (inside : Bool) (cs : List Char) : Decidable (Uncut inside cs) :=
  match cs with
  | [] => inferInstanceAs (Decidable True)
  | c :: rest =>
    have := Uncut.decidable (insideAfter inside c) rest
    inferInstanceAs (Decidable ((c = '.' → inside = true) ∧ Uncut (insideAfter inside c) rest))

variable {inside : Bool} {cs rest before part : List Char} {parts : List (List Char)}

@[simp] theorem insideBehind_nil : insideBehind inside [] = inside := rfl

@[simp] theorem insideBehind_cons (c : Char) :
    insideBehind inside (c :: rest) = insideBehind (insideAfter inside c) rest := rfl

theorem insideBehind_append :
    insideBehind inside (cs ++ rest) = insideBehind (insideBehind inside cs) rest :=
  List.foldl_append

theorem insideAfter_of_ne {c : Char} (hopen : c ≠ '[') (hclose : c ≠ ']') :
    insideAfter inside c = inside := by
  rw [insideAfter, if_neg hopen, if_neg hclose]

theorem uncut_append :
    Uncut inside (cs ++ rest) ↔ Uncut inside cs ∧ Uncut (insideBehind inside cs) rest := by
  induction cs generalizing inside with
  | nil => simp [Uncut]
  | cons c cs ih => simp only [List.cons_append, Uncut, ih, insideBehind_cons, and_assoc]

theorem uncut_of_dotless (h : '.' ∉ cs) : Uncut inside cs := by
  induction cs generalizing inside with
  | nil => trivial
  | cons c cs ih =>
    rw [List.mem_cons, not_or] at h
    exact ⟨fun hc => (h.1 hc.symm).elim, ih h.2⟩

/-! ### Brackets -/

/-- A text without brackets. -/
def Bracketless (cs : List Char) : Prop := '[' ∉ cs ∧ ']' ∉ cs

theorem Bracketless.insideBehind (h : Bracketless cs) : insideBehind inside cs = inside := by
  induction cs with
  | nil => rfl
  | cons c cs ih =>
    obtain ⟨hopen, hclose⟩ := h
    rw [List.mem_cons, not_or] at hopen hclose
    rw [insideBehind_cons, insideAfter_of_ne (Ne.symm hopen.1) (Ne.symm hclose.1)]
    exact ih ⟨hopen.2, hclose.2⟩

/-- Without an opening bracket, no text gets inside. -/
theorem insideBehind_of_not_mem (h : '[' ∉ cs) : insideBehind false cs = false := by
  induction cs with
  | nil => rfl
  | cons c cs ih =>
    rw [List.mem_cons, not_or] at h
    have hc : insideAfter false c = false := by
      rw [insideAfter, if_neg (Ne.symm h.1), ite_self]
    rw [insideBehind_cons, hc]
    exact ih h.2

theorem Uncut.dotless (h : Uncut false cs) (hopen : '[' ∉ cs) : '.' ∉ cs := by
  intro hdot
  obtain ⟨front, behind, rfl⟩ := List.append_of_mem hdot
  have hfront : '[' ∉ front := fun h => hopen (List.mem_append_left _ h)
  have hinside := ((uncut_append.1 h).2).1 rfl
  rw [insideBehind_of_not_mem hfront] at hinside
  cases hinside

/-- A text that starts inside brackets ends inside if it has no bracket, or an opening one behind
all the others. -/
theorem insideBehind_true_iff :
    insideBehind true cs = true ↔
      Bracketless cs ∨ ∃ front behind, cs = front ++ '[' :: behind ∧ Bracketless behind := by
  constructor
  · intro h
    induction cs using List.reverseRecOn with
    | nil => exact .inl ⟨List.not_mem_nil, List.not_mem_nil⟩
    | append_singleton cs c ih =>
      rw [insideBehind_append, insideBehind_cons, insideBehind_nil] at h
      by_cases hopen : c = '['
      · exact .inr ⟨cs, [], by rw [hopen], List.not_mem_nil, List.not_mem_nil⟩
      · have hclose : c ≠ ']' := by
          rintro rfl
          simp [insideAfter] at h
        rw [insideAfter_of_ne hopen hclose] at h
        have hsnoc : ∀ {ds}, Bracketless ds → Bracketless (ds ++ [c]) := by
          rintro ds ⟨hds, hds'⟩
          simp [Bracketless, hds, hds', Ne.symm hopen, Ne.symm hclose]
        rcases ih h with hcs | ⟨front, behind, rfl, hbehind⟩
        · exact .inl (hsnoc hcs)
        · exact .inr ⟨front, behind ++ [c], by simp, hsnoc hbehind⟩
  · rintro (h | ⟨front, behind, rfl, h⟩)
    · exact h.insideBehind
    · rw [insideBehind_append, insideBehind_cons]
      exact h.insideBehind

/-- Each dot of a text is behind no bracket at all, or the nearest bracket in front of it is an
opening one. -/
def DotsInside (cs : List Char) : Prop :=
  ∀ before after, cs = before ++ '.' :: after →
    Bracketless before ∨ ∃ front behind, before = front ++ '[' :: behind ∧ Bracketless behind

theorem uncut_iff :
    Uncut inside cs ↔
      ∀ before after, cs = before ++ '.' :: after → insideBehind inside before = true := by
  constructor
  · rintro h before after rfl
    exact (uncut_append.1 h).2.1 rfl
  · intro h
    induction cs generalizing inside with
    | nil => trivial
    | cons c cs ih =>
      refine ⟨fun hc => h [] cs (by rw [hc]; rfl), ih fun before after hcs => ?_⟩
      exact h (c :: before) after (by rw [hcs]; rfl)

/-- The text of an offset path stays in one piece between its brackets. -/
theorem dotsInside_iff : DotsInside cs ↔ Uncut true cs := by
  simp only [DotsInside, uncut_iff, insideBehind_true_iff]

/-! ### Cutting -/

theorem segmentsFrom_dot : segmentsFrom false ('.' :: rest) = [] :: segmentsFrom false rest := by
  rw [segmentsFrom, if_pos ⟨rfl, rfl⟩]

/-- A character that does not cut belongs to the first segment. -/
theorem segmentsFrom_cons {c : Char} (hc : c = '.' → inside = true)
    (hrest : segmentsFrom (insideAfter inside c) rest = part :: parts) :
    segmentsFrom inside (c :: rest) = (c :: part) :: parts := by
  have hcut : ¬ (c = '.' ∧ inside = false) := by
    rintro ⟨hdot, hinside⟩
    rw [hc hdot] at hinside
    cases hinside
  rw [insideAfter] at hrest
  rw [segmentsFrom, if_neg hcut]
  simp only [hrest]

/-- A character cuts, or it belongs to the first segment. -/
theorem cuts_or_not (inside : Bool) (c : Char) :
    c = '.' ∧ inside = false ∨ (c = '.' → inside = true) := by
  cases inside with
  | false =>
    by_cases hc : c = '.'
    · exact .inl ⟨hc, rfl⟩
    · exact .inr fun hdot => (hc hdot).elim
  | true => exact .inr fun _ => rfl

theorem exists_segmentsFrom (inside : Bool) (cs : List Char) :
    ∃ part parts, segmentsFrom inside cs = part :: parts := by
  induction cs generalizing inside with
  | nil => exact ⟨[], [], rfl⟩
  | cons c cs ih =>
    rcases cuts_or_not inside c with ⟨rfl, rfl⟩ | hc
    · exact ⟨_, _, segmentsFrom_dot⟩
    · obtain ⟨part, parts, hcs⟩ := ih (insideAfter inside c)
      exact ⟨_, _, segmentsFrom_cons hc hcs⟩

theorem Uncut.segmentsFrom (h : Uncut inside cs) : segmentsFrom inside cs = [cs] := by
  induction cs generalizing inside with
  | nil => rfl
  | cons c cs ih => exact segmentsFrom_cons h.1 (ih h.2)

/-- A dot behind a text that ends outside brackets is the first cut. -/
theorem Uncut.segmentsFrom_dot (h : Uncut inside cs) (hend : insideBehind inside cs = false) :
    Path.segmentsFrom inside (cs ++ '.' :: rest) = cs :: Path.segmentsFrom false rest := by
  induction cs generalizing inside with
  | nil =>
    cases hend
    exact Path.segmentsFrom_dot
  | cons c cs ih => exact segmentsFrom_cons h.1 (ih h.2 hend)

/-- A text that can stand between two dots that cut. -/
structure IsSegment (cs : List Char) : Prop where
  ne_nil : cs ≠ []
  uncut : Uncut false cs
  ends : insideBehind false cs = false

theorem segmentsFrom_intercalate (h : ∀ part ∈ parts, IsSegment part) (hne : parts ≠ []) :
    segmentsFrom false (['.'].intercalate parts) = parts := by
  induction parts with
  | nil => exact (hne rfl).elim
  | cons part parts ih =>
    have hpart := h part List.mem_cons_self
    cases parts with
    | nil =>
      rw [List.intercalate_singleton]
      exact hpart.uncut.segmentsFrom
    | cons next parts =>
      rw [List.intercalate_cons_cons, List.append_assoc, List.singleton_append,
        hpart.uncut.segmentsFrom_dot hpart.ends,
        ih (fun part hmem => h part (List.mem_cons_of_mem _ hmem)) (List.cons_ne_nil _ _)]

/-- **Texts with dots between them are cut at these dots.** -/
theorem segments_intercalate (h : ∀ part ∈ parts, IsSegment part) :
    segments (['.'].intercalate parts) = parts := by
  by_cases hne : parts = []
  · rw [hne]
    rfl
  · rw [segments, segmentsFrom_intercalate h hne, List.filter_eq_self]
    intro part hmem
    simp [(h part hmem).ne_nil]

/-! ### What a cut leaves -/

theorem uncut_of_segmentsFrom (h : segmentsFrom inside cs = part :: parts) :
    Uncut inside part ∧ ∀ later ∈ parts, Uncut false later := by
  induction cs generalizing inside part parts with
  | nil =>
    cases h
    exact ⟨trivial, nofun⟩
  | cons c cs ih =>
    rcases cuts_or_not inside c with ⟨rfl, rfl⟩ | hc
    · obtain ⟨next, later, hcs⟩ := exists_segmentsFrom false cs
      rw [segmentsFrom_dot, hcs] at h
      cases h
      exact ⟨trivial, List.forall_mem_cons.2 (ih hcs)⟩
    · obtain ⟨first, later, hcs⟩ := exists_segmentsFrom (insideAfter inside c) cs
      rw [segmentsFrom_cons hc hcs] at h
      cases h
      exact ⟨⟨hc, (ih hcs).1⟩, (ih hcs).2⟩

/-- No segment can be cut again, and none is empty. -/
theorem uncut_of_mem_segments (h : part ∈ segments cs) : part ≠ [] ∧ Uncut false part := by
  obtain ⟨hmem, hne⟩ := List.mem_filter.1 h
  obtain ⟨first, later, hcs⟩ := exists_segmentsFrom false cs
  have huncut := uncut_of_segmentsFrom hcs
  rw [hcs] at hmem
  exact ⟨by simpa using hne, List.forall_mem_cons.2 huncut part hmem⟩

theorem length_le_of_mem_segmentsFrom (h : part ∈ segmentsFrom inside cs) :
    part.length ≤ cs.length := by
  induction cs generalizing inside part with
  | nil =>
    obtain rfl := List.mem_singleton.1 h
    exact Nat.le_refl 0
  | cons c cs ih =>
    rcases cuts_or_not inside c with ⟨rfl, rfl⟩ | hc
    · rw [segmentsFrom_dot, List.mem_cons] at h
      rcases h with rfl | h
      · exact Nat.zero_le _
      · exact Nat.le_succ_of_le (ih h)
    · obtain ⟨first, later, hcs⟩ := exists_segmentsFrom (insideAfter inside c) cs
      have hshort : ∀ part ∈ first :: later, part.length ≤ cs.length := fun part hmem =>
        ih (hcs ▸ hmem)
      rw [segmentsFrom_cons hc hcs, List.mem_cons] at h
      rcases h with rfl | h
      · exact Nat.succ_le_succ (hshort first List.mem_cons_self)
      · exact Nat.le_succ_of_le (hshort part (List.mem_cons_of_mem _ h))

theorem length_le_of_mem_segments (h : part ∈ segments cs) : part.length ≤ cs.length :=
  length_le_of_mem_segmentsFrom (List.mem_filter.1 h).1

end Reshape.Path
