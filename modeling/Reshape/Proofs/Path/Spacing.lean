import Mathlib.Logic.Relation
import Reshape.Proofs.Path.Seam

/-!
# Blanks inside brackets

Blanks behind an opening bracket, in front of a closing one and around the separator of a range or a
list do not count, also between the brackets of an offset path, and of an offset path in that one.
What is read in front of the brackets and behind them does not depend on what stands in them.

* `Component.Matches` and `Path.Matches`, components that are the same but for the texts of their
  offset paths, which denote matching components;
* `Path.Loosened`, a text in brackets with more blanks, and `Path.Spaced`, an expression with more
  blanks in one pair of brackets;
* `Path.exists_around`, an expression around a pair of brackets, and `Path.exists_frame`, the
  brackets of a segment as such a pair;
* `Path.parse_spaced`, for any number of insertions.
-/

namespace Reshape

/-! ### Matching components -/

mutual
/-- Two components are the same but for the texts of their offset paths. -/
inductive Component.Matches : Component → Component → Prop
  | same (c : Component) : Component.Matches c c
  | offset {name offset offset' : String} {components components' : List Component}
      (h : Path.parse offset = .ok components) (h' : Path.parse offset' = .ok components')
      (hmatch : Path.Matches components components') :
      Component.Matches (.arrayAllOffset name offset) (.arrayAllOffset name offset')

/-- Two lists of components match one by one. -/
inductive Path.Matches : List Component → List Component → Prop
  | nil : Path.Matches [] []
  | cons {c c' : Component} {rest rest' : List Component} (h : Component.Matches c c')
      (hrest : Path.Matches rest rest') : Path.Matches (c :: rest) (c' :: rest')
end

mutual
theorem Component.Matches.trans {c c' c'' : Component} :
    c.Matches c' → c'.Matches c'' → c.Matches c''
  | .same _, h => h
  | .offset h h' hmatch, .same _ => .offset h h' hmatch
  | .offset h h' hmatch, .offset hsame h'' hmatch' => by
    cases h'.symm.trans hsame
    exact .offset h h'' (hmatch.trans hmatch')

theorem Path.Matches.trans {components components' components'' : List Component} :
    Path.Matches components components' → Path.Matches components' components'' →
      Path.Matches components components''
  | .nil, .nil => .nil
  | .cons h hrest, .cons h' hrest' => .cons (h.trans h') (hrest.trans hrest')
end

namespace Path

open Text

theorem Matches.refl (components : List Component) : Matches components components := by
  induction components with
  | nil => exact .nil
  | cons c rest ih => exact .cons (.same c) ih

theorem Matches.around {c c' : Component} (h : c.Matches c') (before behind : List Component) :
    Matches (before ++ c :: behind) (before ++ c' :: behind) := by
  induction before with
  | nil => exact .cons h (.refl behind)
  | cons first before ih => exact .cons (.same first) ih

/-! ### More blanks -/

/-- A text in brackets with more blanks at one of its ends or around a separator. A separator
behind a star would belong to an offset path. -/
inductive Loosened : List Char → List Char → Prop
  | opening {blanks inside : List Char} (h : AllBlank blanks) : Loosened inside (blanks ++ inside)
  | closing {blanks inside : List Char} (h : AllBlank blanks) : Loosened inside (inside ++ blanks)
  | separator {sep : Char} {blanks blanks' before after : List Char} (hsep : sep = ':' ∨ sep = ',')
      (hstar : '*' ∉ before) (h : AllBlank blanks) (h' : AllBlank blanks') :
      Loosened (before ++ sep :: after) (before ++ (blanks ++ sep :: (blanks' ++ after)))

/-- An opening bracket behind the text opens a component: it is the first one behind the start of
the expression or behind a dot that cuts. -/
def Opens (front : List Char) : Prop :=
  '[' ∉ front ∨
    ∃ before name, front = before ++ '.' :: name ∧ insideBehind false before = false ∧ '[' ∉ name

/-- A closing bracket in front of the text closes a component: it is the last character of the
expression or stands in front of a dot. -/
def Closes (back : List Char) : Prop := back = [] ∨ ∃ rest, back = '.' :: rest

/-- An expression with more blanks between the brackets of one of its components, or of a component
of an offset path. -/
inductive Spaced : List Char → List Char → Prop
  | inside {front back inside inside' : List Char} (hopens : Opens front) (hcloses : Closes back)
      (huncut : Uncut true inside) (h : Loosened inside inside') :
      Spaced (front ++ '[' :: (inside ++ ']' :: back)) (front ++ '[' :: (inside' ++ ']' :: back))
  | offset {front back blanks offset offset' : List Char} (hopens : Opens front)
      (hcloses : Closes back) (huncut : Uncut true offset) (hblanks : AllBlank blanks)
      (h : Spaced offset offset') :
      Spaced (front ++ '[' :: (blanks ++ '*' :: '+' :: offset ++ ']' :: back))
        (front ++ '[' :: (blanks ++ '*' :: '+' :: offset' ++ ']' :: back))

variable {front back inside inside' p q : List Char} {name : String} {c c' : Component}
  {components : List Component} {check : List Char → Except SyntaxError Unit}

/-! ### A text in brackets -/

theorem Loosened.uncut (h : Loosened inside inside') (huncut : Uncut true inside) :
    Uncut true inside' := by
  cases h with
  | opening h => exact (uncut_blanks_append h).2 huncut
  | closing h => exact uncut_append.2 ⟨huncut, uncut_of_allBlank h⟩
  | separator hsep hstar h h' =>
    obtain ⟨hbefore, hdot, hafter⟩ := uncut_append.1 huncut
    rw [uncut_append, uncut_blanks_append h]
    exact ⟨hbefore, hdot, (uncut_blanks_append h').2 hafter⟩

/-- What a text in brackets denotes can be told from the trimmed text. -/
theorem Denotes.of_trim (h : Denotes check name inside c) (htrim : trim inside' = trim inside) :
    Denotes check name inside' c := by
  rw [← bracket_trim_eq_ok []] at h ⊢
  rwa [htrim]

/-- A separator in a text that is read is the one of a range or of a list. -/
theorem Denotes.loosen_separator {sep : Char} {before after blanks blanks' : List Char}
    (hd : Denotes check name (before ++ sep :: after) c) (hsep : sep = ':' ∨ sep = ',')
    (hstar : '*' ∉ before) (h : AllBlank blanks) (h' : AllBlank blanks') :
    Denotes check name (before ++ (blanks ++ sep :: (blanks' ++ after))) c := by
  have hforeign : IsForeign sep := by rcases hsep with rfl | rfl <;> decide
  generalize hinside : before ++ sep :: after = inside at hd
  have hmem : sep ∈ inside := by simp [← hinside]
  have htrim : trim inside = trimStart before ++ sep :: trimEnd after := by
    rw [← hinside, trim_append_cons hforeign.1]
  cases hd with
  | all hall =>
    rw [← mem_trim_iff hforeign.1, hall, List.mem_singleton] at hmem
    rcases hsep with rfl | rfl <;> cases hmem
  | offset hoffset =>
    rw [htrim] at hoffset
    cases hfront : trimStart before with
    | nil =>
      rw [hfront] at hoffset
      have hstar : sep = '*' := (List.cons.inj hoffset).1
      rcases hsep with rfl | rfl <;> cases hstar
    | cons first rest =>
      rw [hfront] at hoffset
      have hfirst : '*' ∈ trimStart before := by
        rw [hfront, ← (List.cons.inj hoffset).1]
        exact List.mem_cons_self
      exact (hstar ((List.dropWhile_sublist isBlank).mem hfirst)).elim
  | range hfirst hlast =>
    obtain ⟨rfl, rfl, rfl⟩ := (List.append_cons_inj_of_notMem (hforeign.not_mem hfirst)
      (hforeign.not_mem hlast)).1 hinside.symm
    rw [← List.append_assoc]
    refine .range ?_ ?_
    · rwa [trim_append_blanks h]
    · rwa [trim_blanks_append h']
  | values hcomma hwords =>
    rcases hsep with rfl | rfl
    · exact (not_mem_of_forall₂ hforeign (by decide) hwords hmem).elim
    · rw [← hinside, splitAll_append_cons_self, List.map_append] at hwords
      refine .values (by simp) ?_
      rw [← List.append_assoc, splitAll_append_cons_self, List.map_append,
        map_trim_splitAll_append_blanks hforeign.1 h, map_trim_splitAll_blanks_append hforeign.1 h']
      exact hwords
  | index hword => exact (hforeign.not_mem hword hmem).elim

theorem Loosened.denotes (h : Loosened inside inside') (hd : Denotes check name inside c) :
    Denotes check name inside' c := by
  cases h with
  | opening h => exact hd.of_trim (trim_blanks_append h inside)
  | closing h => exact hd.of_trim (trim_append_blanks h inside)
  | separator hsep hstar h h' => exact hd.loosen_separator hsep hstar h h'

/-! ### Around the brackets -/

theorem Opens.tail {first : Char} (h : Opens (first :: front)) (hopen : first ≠ '[')
    (hclose : first ≠ ']') : Opens front := by
  rcases h with h | ⟨before, field, hfront, hends, hfield⟩
  · exact .inl fun hmem => h (List.mem_cons_of_mem _ hmem)
  · cases before with
    | nil =>
      cases hfront
      exact .inl hfield
    | cons c before =>
      cases hfront
      rw [insideBehind_cons, insideAfter_of_ne hopen hclose] at hends
      exact .inr ⟨before, field, rfl, hends, hfield⟩

/-- The root sign and the dots at the start of an expression have no part in its brackets. -/
theorem Opens.start (h : Opens front) : Opens (splitDescent (dropRoot front)).2 := by
  have hroot : Opens (dropRoot front) := by
    unfold dropRoot
    split
    · exact h.tail (by decide) (by decide)
    · exact h
  unfold splitDescent
  split
  next heq =>
    rw [heq] at hroot
    exact (hroot.tail (by decide) (by decide)).tail (by decide) (by decide)
  next heq =>
    rw [heq] at hroot
    exact hroot.tail (by decide) (by decide)
  next => exact hroot

/-- The start of an expression is in front of every bracket. -/
theorem splitDescent_dropRoot_append_bracket (front rest : List Char) :
    splitDescent (dropRoot (front ++ '[' :: rest)) =
      ((splitDescent (dropRoot front)).1, (splitDescent (dropRoot front)).2 ++ '[' :: rest) := by
  have hroot : dropRoot (front ++ '[' :: rest) = dropRoot front ++ '[' :: rest := by
    by_cases hfront : front = []
    · rw [hfront]
      rfl
    · exact dropRoot_append hfront
  rw [hroot]
  by_cases hnil : dropRoot front = []
  · rw [hnil]
    rfl
  · by_cases hdot : dropRoot front = ['.']
    · rw [hdot]
      rfl
    · exact splitDescent_append hnil hdot

/-- Behind a text without an opening bracket, a bracket belongs to the last piece of that text. -/
theorem exists_segmentsFrom_append {field : List Char} (h : '[' ∉ field) :
    ∃ parts last, '[' ∉ last ∧ ∀ rest first later, segmentsFrom false rest = first :: later →
      segmentsFrom false (field ++ rest) = parts ++ (last ++ first) :: later := by
  induction field with
  | nil => exact ⟨[], [], List.not_mem_nil, fun rest first later hrest => hrest⟩
  | cons c field ih =>
    rw [List.mem_cons, not_or] at h
    obtain ⟨parts, last, hlast, happend⟩ := ih h.2
    rcases cuts_or_not false c with ⟨rfl, -⟩ | hc
    · refine ⟨[] :: parts, last, hlast, fun rest first later hrest => ?_⟩
      rw [List.cons_append, segmentsFrom_dot, happend rest first later hrest, List.cons_append]
    · have houtside : insideAfter false c = false := by
        rw [insideAfter, if_neg (Ne.symm h.1), ite_self]
      cases parts with
      | nil =>
        refine ⟨[], c :: last, by simp [h.1, hlast], fun rest first later hrest => ?_⟩
        exact segmentsFrom_cons hc (by rw [houtside]; exact happend rest first later hrest)
      | cons part parts =>
        refine ⟨(c :: part) :: parts, last, hlast, fun rest first later hrest => ?_⟩
        exact segmentsFrom_cons hc (by rw [houtside]; exact happend rest first later hrest)

/-- A pair of brackets and what follows. -/
theorem exists_segmentsFrom_brackets (hcloses : Closes back) (h : Uncut true inside) :
    ∃ later, segmentsFrom false ('[' :: (inside ++ ']' :: back)) =
        ('[' :: (inside ++ [']'])) :: later ∧
      later.filter (fun part => !part.isEmpty) = segments back := by
  have huncut : Uncut false ('[' :: (inside ++ [']'])) :=
    ⟨nofun, uncut_append.2 ⟨h, nofun, trivial⟩⟩
  rcases hcloses with rfl | ⟨rest, rfl⟩
  · exact ⟨[], huncut.segmentsFrom, rfl⟩
  · have hends : insideBehind false ('[' :: (inside ++ [']'])) = false := by
      rw [insideBehind_cons, insideBehind_append]
      rfl
    have htext : '[' :: (inside ++ ']' :: '.' :: rest) =
        '[' :: (inside ++ [']']) ++ '.' :: rest := by simp
    refine ⟨segmentsFrom false rest, ?_, ?_⟩
    · rw [htext, huncut.segmentsFrom_dot hends]
    · rw [segments, segmentsFrom_dot]
      rfl

/-- The brackets of a component make a segment with the name in front of them, and leave the other
segments as they are. -/
theorem exists_segments_around (hopens : Opens front) (hcloses : Closes back) :
    ∃ parts field, '[' ∉ field ∧ ∀ inside, Uncut true inside →
      segments (front ++ '[' :: (inside ++ ']' :: back)) =
        parts ++ (field ++ '[' :: (inside ++ [']'])) :: segments back := by
  obtain ⟨parts, field, hfield, happend⟩ : ∃ parts field, '[' ∉ field ∧
      ∀ rest first later, segmentsFrom false rest = first :: later →
        segmentsFrom false (front ++ rest) = parts ++ (field ++ first) :: later := by
    rcases hopens with h | ⟨before, name, rfl, hends, hname⟩
    · exact exists_segmentsFrom_append h
    · obtain ⟨parts, field, hfield, happend⟩ := exists_segmentsFrom_append hname
      refine ⟨segmentsFrom false before ++ parts, field, hfield, fun rest first later hrest => ?_⟩
      rw [List.append_assoc, List.cons_append, segmentsFrom_append_dot hends,
        happend rest first later hrest, List.append_assoc]
  refine ⟨parts.filter fun part => !part.isEmpty, field, hfield, fun inside h => ?_⟩
  obtain ⟨later, hlater, hback⟩ := exists_segmentsFrom_brackets hcloses h
  rw [segments, happend _ _ _ hlater, List.filter_append, List.filter_cons_of_pos (by simp), hback]

/-- **An expression around a pair of brackets.** What is read in front of the brackets and behind
them does not depend on what stands in them. -/
theorem exists_around (hopens : Opens front) (hcloses : Closes back) (hinside : Uncut true inside)
    (h : parse (String.ofList (front ++ '[' :: (inside ++ ']' :: back))) = .ok components) :
    ∃ name before c behind, components = before ++ c :: behind ∧
      Denotes checkOffset name inside c ∧
      ∀ inside' c', Uncut true inside' → Denotes checkOffset name inside' c' →
        parse (String.ofList (front ++ '[' :: (inside' ++ ']' :: back))) =
          .ok (before ++ c' :: behind) := by
  obtain ⟨parts, field, hfield, hsegments⟩ := exists_segments_around hopens.start hcloses
  have hread (inside : List Char) (hinside : Uncut true inside) :
      parse (String.ofList (front ++ '[' :: (inside ++ ']' :: back))) =
        ((parts ++ (field ++ '[' :: (inside ++ [']'])) :: segments back).mapM
          (segment checkOffset)).map fun found =>
            if (splitDescent (dropRoot front)).1 then .recursiveDescent :: found else found := by
    have hblank : ¬ (front ++ '[' :: (inside ++ ']' :: back)).all Text.isBlank = true := by
      intro hall
      rw [List.all_append, List.all_cons, Bool.and_eq_true, Bool.and_eq_true] at hall
      exact absurd hall.2.1 (by decide)
    rw [parse_eq, String.toList_ofList, if_neg hblank, splitDescent_dropRoot_append_bracket,
      hsegments inside hinside]
  rw [hread inside hinside, map_eq_ok] at h
  obtain ⟨found, hfound, rfl⟩ := h
  rw [List.mapM_append] at hfound
  obtain ⟨before, hbefore, hfound⟩ := bind_eq_ok.1 hfound
  obtain ⟨rest, hrest, hfound⟩ := bind_eq_ok.1 hfound
  cases hfound
  rw [List.mapM_cons] at hrest
  obtain ⟨c, hc, hrest⟩ := bind_eq_ok.1 hrest
  obtain ⟨behind, hbehind, hrest⟩ := bind_eq_ok.1 hrest
  cases hrest
  refine ⟨String.ofList field,
    if (splitDescent (dropRoot front)).1 then .recursiveDescent :: before else before, c, behind,
    by split <;> rfl, (segment_of_brackets hfield).1 hc, fun inside' c' hinside' hd => ?_⟩
  rw [hread inside' hinside', mapM_append_of_ok hbefore, List.mapM_cons,
    (segment_of_brackets hfield).2 hd, ok_bind, hbehind]
  split <;> rfl

/-! ### Where brackets stand -/

theorem uncut_around {i : Bool} :
    Uncut i (front ++ '[' :: (inside ++ ']' :: back)) ↔
      Uncut i front ∧ Uncut true inside ∧ Uncut false back := by
  rw [uncut_append]
  refine and_congr_right fun _ => ⟨fun h => ?_, fun h => ⟨nofun, ?_⟩⟩
  · obtain ⟨hinside, -, hback⟩ := uncut_append.1 h.2
    exact ⟨hinside, hback⟩
  · exact uncut_append.2 ⟨h.1, nofun, h.2⟩

/-- A part that is cut out stands between dots, at the start or at the end. -/
theorem exists_between {i : Bool} {cs part : List Char} {pre post : List (List Char)}
    (h : segmentsFrom i cs = pre ++ part :: post) :
    ∃ before after, cs = before ++ (part ++ after) ∧ Closes after ∧
      (pre = [] ∧ before = [] ∨
        pre ≠ [] ∧ ∃ front, before = front ++ ['.'] ∧ insideBehind i front = false) := by
  induction cs generalizing i pre part post with
  | nil =>
    cases pre with
    | nil =>
      cases h
      exact ⟨[], [], rfl, .inl rfl, .inl ⟨rfl, rfl⟩⟩
    | cons first pre => simp [segmentsFrom] at h
  | cons c cs ih =>
    rcases cuts_or_not i c with ⟨rfl, rfl⟩ | hc
    · rw [segmentsFrom_dot] at h
      cases pre with
      | nil =>
        cases h
        exact ⟨[], '.' :: cs, rfl, .inr ⟨cs, rfl⟩, .inl ⟨rfl, rfl⟩⟩
      | cons first pre =>
        obtain ⟨before, after, rfl, hafter, hbefore⟩ := ih (List.cons.inj h).2
        refine ⟨'.' :: before, after, rfl, hafter, .inr ⟨List.cons_ne_nil _ _, ?_⟩⟩
        rcases hbefore with ⟨-, rfl⟩ | ⟨-, front, rfl, hends⟩
        · exact ⟨[], rfl, rfl⟩
        · exact ⟨'.' :: front, rfl, hends⟩
    · obtain ⟨first, later, hcs⟩ := exists_segmentsFrom (insideAfter i c) cs
      rw [segmentsFrom_cons hc hcs] at h
      cases pre with
      | nil =>
        cases h
        have hhead : segmentsFrom (insideAfter i c) cs = [] ++ first :: post := hcs
        obtain ⟨before, after, rfl, hafter, ⟨-, rfl⟩ | ⟨hne, -⟩⟩ := ih hhead
        · exact ⟨[], after, rfl, hafter, .inl ⟨rfl, rfl⟩⟩
        · exact (hne rfl).elim
      | cons _ pre =>
        have hlater : segmentsFrom (insideAfter i c) cs = (first :: pre) ++ part :: post := by
          rw [hcs, (List.cons.inj h).2]
          rfl
        obtain ⟨before, after, rfl, hafter, ⟨hnil, -⟩ | ⟨-, front, rfl, hends⟩⟩ := ih hlater
        · cases hnil
        · exact ⟨c :: (front ++ ['.']), after, rfl, hafter,
            .inr ⟨List.cons_ne_nil _ _, c :: front, rfl, hends⟩⟩

/-- What an expression starts with has no brackets. -/
theorem exists_start (cs : List Char) :
    ∃ sign, cs = sign ++ (splitDescent (dropRoot cs)).2 ∧ Bracketless sign := by
  obtain ⟨sign, hcs, hopen, hclose⟩ : ∃ sign, cs = sign ++ dropRoot cs ∧ Bracketless sign := by
    unfold dropRoot
    split
    · exact ⟨['$'], rfl, by decide, by decide⟩
    · exact ⟨[], rfl, by decide, by decide⟩
  unfold splitDescent
  split
  next rest hrest =>
    rw [hrest] at hcs
    exact ⟨sign ++ ['.', '.'], by simp [hcs], by simp [hopen], by simp [hclose]⟩
  next rest _ hrest =>
    rw [hrest] at hcs
    exact ⟨sign ++ ['.'], by simp [hcs], by simp [hopen], by simp [hclose]⟩
  next => exact ⟨sign, hcs, hopen, hclose⟩

/-- **Every pair of brackets of an accepted expression stands in such a place.** -/
theorem exists_frame {text part : List Char} (h : segment check part = .ok c)
    (hpart : part ∈ segments (splitDescent (dropRoot text)).2) (hopen : '[' ∈ part) :
    ∃ front field inside back, text = front ++ '[' :: (inside ++ ']' :: back) ∧ Opens front ∧
      Closes back ∧ Uncut true inside ∧ part = field ++ '[' :: (inside ++ [']']) := by
  obtain ⟨rfl, -⟩ | ⟨-, hnone, -⟩ | ⟨field, inside, rfl, hfield, -⟩ := segment_cases h
  · exact absurd hopen (by decide)
  · exact (hnone.1 hopen).elim
  have huncut : Uncut true inside := (uncut_around.1 (uncut_of_mem_segments hpart).2).2.1
  obtain ⟨sign, htext, hsign⟩ := exists_start text
  obtain ⟨pre, post, hcut⟩ := List.append_of_mem (List.mem_filter.1 hpart).1
  obtain ⟨before, back, hrest, hcloses, hbefore⟩ := exists_between hcut
  have hopens : Opens (sign ++ (before ++ field)) := by
    rcases hbefore with ⟨-, rfl⟩ | ⟨-, front, rfl, hends⟩
    · exact .inl (by simp [hsign.1, hfield])
    · refine .inr ⟨sign ++ front, field, by simp, ?_, hfield⟩
      rw [insideBehind_append, hsign.insideBehind, hends]
  refine ⟨sign ++ (before ++ field), field, inside, back, ?_, hopens, hcloses, huncut, rfl⟩
  rw [htext, hrest]
  simp

/-! ### Reading the same -/

/-- When the first expression is accepted, the second one is accepted with matching components. -/
def Preserves (p q : List Char) : Prop :=
  ∀ components, parse (String.ofList p) = .ok components →
    ∃ components', parse (String.ofList q) = .ok components' ∧ Matches components components'

theorem preserves_of_denotes (hopens : Opens front) (hcloses : Closes back)
    (hinside : Uncut true inside) (hinside' : Uncut true inside')
    (h : ∀ name c, Denotes checkOffset name inside c →
      ∃ c', Denotes checkOffset name inside' c' ∧ c.Matches c') :
    Preserves (front ++ '[' :: (inside ++ ']' :: back))
      (front ++ '[' :: (inside' ++ ']' :: back)) := by
  intro components hp
  obtain ⟨name, before, c, behind, rfl, hc, hread⟩ := exists_around hopens hcloses hinside hp
  obtain ⟨c', hc', hmatches⟩ := h name c hc
  exact ⟨_, hread inside' c' hinside' hc', Matches.around hmatches before behind⟩

theorem uncut_offset {blanks offset : List Char} (hblanks : AllBlank blanks) :
    Uncut true (blanks ++ '*' :: '+' :: offset) ↔ Uncut true offset := by
  rw [uncut_blanks_append hblanks]
  exact ⟨fun h => h.2.2, fun h => ⟨nofun, nofun, h⟩⟩

theorem Spaced.uncut (h : Spaced p q) {i : Bool} (hp : Uncut i p) : Uncut i q := by
  induction h generalizing i with
  | inside hopens hcloses huncut h =>
    obtain ⟨hfront, -, hback⟩ := uncut_around.1 hp
    exact uncut_around.2 ⟨hfront, h.uncut huncut, hback⟩
  | offset hopens hcloses huncut hblanks h ih =>
    obtain ⟨hfront, -, hback⟩ := uncut_around.1 hp
    exact uncut_around.2 ⟨hfront, (uncut_offset hblanks).2 (ih huncut), hback⟩

/-- An offset path is trimmed at its end, where the brackets are closed. -/
theorem denotes_offset_iff {blanks offset : List Char} (hblanks : AllBlank blanks) :
    Denotes check name (blanks ++ '*' :: '+' :: offset) c ↔
      check (trimEnd offset) = .ok () ∧
        c = .arrayAllOffset name (String.ofList (trimEnd offset)) := by
  have htrim : trim (blanks ++ '*' :: '+' :: offset) = '*' :: '+' :: trimEnd offset := by
    have hplus : trimEnd ('+' :: offset) = '+' :: trimEnd offset :=
      trimEnd_append_cons (by decide) [] offset
    rw [trim_blanks_append hblanks, ← hplus]
    exact trim_append_cons (by decide) [] ('+' :: offset)
  constructor
  · intro h
    rw [← bracket_trim_eq_ok [], htrim, bracket_offset] at h
    obtain ⟨_, hcheck, rfl⟩ := map_eq_ok.1 h
    exact ⟨hcheck, rfl⟩
  · rintro ⟨hcheck, rfl⟩
    exact .offset htrim hcheck

theorem trimEnd_around (front inside back : List Char) :
    trimEnd (front ++ '[' :: (inside ++ ']' :: back)) =
      front ++ '[' :: (inside ++ ']' :: trimEnd back) := by
  have hclose := trimEnd_append_cons (show isBlank ']' = false by decide) (front ++ '[' :: inside)
    back
  simpa using hclose

theorem Closes.trimEnd (h : Closes back) : Closes (trimEnd back) := by
  rcases h with rfl | ⟨rest, rfl⟩
  · exact .inl rfl
  · exact .inr ⟨Text.trimEnd rest, trimEnd_append_cons (by decide) [] rest⟩

/-- **More blanks between a pair of brackets** are read as the expression was, and so is an
expression without the blanks at its end. -/
theorem Spaced.preserves (h : Spaced p q) : Preserves p q ∧ Preserves (trimEnd p) (trimEnd q) := by
  -- An offset path is read without the blanks at its end, which may be those behind its brackets.
  -- So what holds of an expression is needed of the trimmed one as well.
  induction h with
  | inside hopens hcloses huncut h =>
    rw [trimEnd_around, trimEnd_around]
    have hdenotes (name : String) (c : Component) (hc : Denotes checkOffset name _ c) :
        ∃ c', Denotes checkOffset name _ c' ∧ c.Matches c' := ⟨c, h.denotes hc, .same c⟩
    exact ⟨preserves_of_denotes hopens hcloses huncut (h.uncut huncut) hdenotes,
      preserves_of_denotes hopens hcloses.trimEnd huncut (h.uncut huncut) hdenotes⟩
  | @offset front back blanks offset offset' hopens hcloses huncut hblanks h ih =>
    rw [trimEnd_around, trimEnd_around]
    have hdenotes (name : String) (c : Component)
        (hc : Denotes checkOffset name (blanks ++ '*' :: '+' :: offset) c) :
        ∃ c', Denotes checkOffset name (blanks ++ '*' :: '+' :: offset') c' ∧ c.Matches c' := by
      obtain ⟨hcheck, rfl⟩ := (denotes_offset_iff hblanks).1 hc
      obtain ⟨components, hparse, -⟩ := map_eq_ok.1 hcheck
      obtain ⟨components', hparse', hmatches⟩ := ih.2 components hparse
      have hcheck' : checkOffset (trimEnd offset') = .ok () := by
        rw [checkOffset, hparse']
        rfl
      exact ⟨_, (denotes_offset_iff hblanks).2 ⟨hcheck', rfl⟩, .offset hparse hparse' hmatches⟩
    have hinside : Uncut true (blanks ++ '*' :: '+' :: offset) := (uncut_offset hblanks).2 huncut
    have hinside' : Uncut true (blanks ++ '*' :: '+' :: offset') :=
      (uncut_offset hblanks).2 (h.uncut huncut)
    exact ⟨preserves_of_denotes hopens hcloses hinside hinside' hdenotes,
      preserves_of_denotes hopens hcloses.trimEnd hinside hinside' hdenotes⟩

/-- **Blanks inside brackets are insignificant.** An accepted expression into which blanks are put,
as often as one likes, behind an opening bracket, in front of a closing one or around the separator
of a range or a list, is accepted with the same components, where offset paths are compared by the
components that they denote. -/
theorem parse_spaced {p q : String} (h : Relation.ReflTransGen Spaced p.toList q.toList)
    (hp : parse p = .ok components) :
    ∃ components', parse q = .ok components' ∧ Matches components components' := by
  rw [← String.ofList_toList (s := q)]
  generalize q.toList = text at h ⊢
  induction h with
  | refl => exact ⟨components, by rwa [String.ofList_toList], .refl components⟩
  | tail _ hspaced ih =>
    obtain ⟨components', hbetween, hmatches⟩ := ih
    obtain ⟨components'', hq, hmatches'⟩ := hspaced.preserves.1 components' hbetween
    exact ⟨components'', hq, hmatches.trans hmatches'⟩

/-- Blanks are put around the colon of a range in an offset path, around the comma of a list, and
behind the bracket in front of the offset path. -/
theorem parse_spaced_of_offset :
    Relation.ReflTransGen Spaced "..a[*+$.b[1:2]].c[3,4]".toList
        "..a[ *+$.b[1 : 2]].c[3 , 4]".toList ∧
      parse "..a[*+$.b[1:2]].c[3,4]" =
        .ok [.recursiveDescent, .arrayAllOffset "a" "$.b[1:2]", .arrayValues "c" [3, 4]] ∧
      ∃ components, parse "..a[ *+$.b[1 : 2]].c[3 , 4]" = .ok components ∧
        Matches [.recursiveDescent, .arrayAllOffset "a" "$.b[1:2]", .arrayValues "c" [3, 4]]
          components := by
  have hblank : AllBlank [' '] := by
    intro c hc
    rw [List.mem_singleton.1 hc]
    decide
  have hrange : Spaced "$.b[1:2]".toList "$.b[1 : 2]".toList :=
    show Spaced ("$.b".toList ++ '[' :: ("1".toList ++ ':' :: "2".toList ++ ']' :: []))
        ("$.b".toList ++
          '[' :: ("1".toList ++ ([' '] ++ ':' :: ([' '] ++ "2".toList)) ++ ']' :: []))
      from .inside (.inr ⟨"$".toList, "b".toList, rfl, rfl, by decide⟩) (.inl rfl)
        (by decide) (.separator (.inl rfl) (by decide) hblank hblank)
  have hoffset : Spaced "..a[*+$.b[1:2]].c[3,4]".toList "..a[*+$.b[1 : 2]].c[3,4]".toList :=
    show Spaced ("..a".toList ++ '[' :: ([] ++ '*' :: '+' :: "$.b[1:2]".toList ++
          ']' :: ".c[3,4]".toList))
        ("..a".toList ++ '[' :: ([] ++ '*' :: '+' :: "$.b[1 : 2]".toList ++
          ']' :: ".c[3,4]".toList))
      from .offset (.inl (by decide)) (.inr ⟨"c[3,4]".toList, rfl⟩)
        (by decide) nofun hrange
  have hopening : Spaced "..a[*+$.b[1 : 2]].c[3,4]".toList "..a[ *+$.b[1 : 2]].c[3,4]".toList :=
    show Spaced ("..a".toList ++ '[' :: ("*+$.b[1 : 2]".toList ++ ']' :: ".c[3,4]".toList))
        ("..a".toList ++ '[' :: ([' '] ++ "*+$.b[1 : 2]".toList ++ ']' :: ".c[3,4]".toList))
      from .inside (.inl (by decide)) (.inr ⟨"c[3,4]".toList, rfl⟩) (by decide)
        (.opening hblank)
  have hlist : Spaced "..a[ *+$.b[1 : 2]].c[3,4]".toList "..a[ *+$.b[1 : 2]].c[3 , 4]".toList :=
    show Spaced ("..a[ *+$.b[1 : 2]].c".toList ++
          '[' :: ("3".toList ++ ',' :: "4".toList ++ ']' :: []))
        ("..a[ *+$.b[1 : 2]].c".toList ++
          '[' :: ("3".toList ++ ([' '] ++ ',' :: ([' '] ++ "4".toList)) ++ ']' :: []))
      from .inside (.inr ⟨"..a[ *+$.b[1 : 2]]".toList, "c".toList, rfl, rfl, by decide⟩) (.inl rfl)
        (by decide) (.separator (.inr rfl) (by decide) hblank hblank)
  have hspaced := ((Relation.ReflTransGen.single hoffset).tail hopening).tail hlist
  have hread : parse "..a[*+$.b[1:2]].c[3,4]" =
      .ok [.recursiveDescent, .arrayAllOffset "a" "$.b[1:2]", .arrayValues "c" [3, 4]] := by
    decide +kernel
  exact ⟨hspaced, hread, parse_spaced hspaced hread⟩

/-- Behind the star and the plus sign blanks are not trimmed: they become part of the first name of
the offset path. -/
theorem parse_spaced_behind_plus :
    parse "$.f[*+$.a]" = .ok [.arrayAllOffset "f" "$.a"] ∧
      parse "$.f[*+ $.a]" = .ok [.arrayAllOffset "f" " $.a"] ∧
      parse "$.a" = .ok [.field "a"] ∧ parse " $.a" = .ok [.field " $", .field "a"] ∧
      ¬ Matches [.arrayAllOffset "f" "$.a"] [.arrayAllOffset "f" " $.a"] := by
  have hpath : parse "$.a" = .ok [.field "a"] := by decide +kernel
  have hblank : parse " $.a" = .ok [.field " $", .field "a"] := by decide +kernel
  refine ⟨by decide +kernel, by decide +kernel, hpath, hblank, fun hmatches => ?_⟩
  have hne : Component.arrayAllOffset "f" "$.a" ≠ .arrayAllOffset "f" " $.a" := by decide
  generalize hc : Component.arrayAllOffset "f" "$.a" = c at hne hmatches
  generalize hc' : Component.arrayAllOffset "f" " $.a" = c' at hne hmatches
  cases hmatches with
  | cons hoffset _ =>
    cases hoffset with
    | same => exact hne rfl
    | offset h h' hmatch =>
      cases hc
      cases hc'
      cases hpath.symm.trans h
      cases hblank.symm.trans h'
      cases hmatch with
      | cons _ hrest => cases hrest

end Path

end Reshape
