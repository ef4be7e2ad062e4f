import Mathlib.Data.List.DropRight
import Mathlib.Data.List.TakeWhile
import Reshape.Proofs.Json.Lexeme

/-!
# The reference codec reads and writes JSON

Reading goes by the grammar: one induction on how a text is written shows that the reader takes it
off the front of whatever follows it, and that its tree denotes the datum. Writing is an induction
on the datum.

* `written_last`, `written_more` and the like, the steps of every writer;
* `Layout.IsBlank` and `chars_written`, for every layout of blanks;
* `Reads`, `ReadsPadded`, `ReadsItems` and `ReadsFields`, what is read off the front of a text, and
  `Written.reads`;
* `Codec.writesJson_reference` and `Codec.readsJson_reference`.
-/

namespace Reshape

open Grammar Json

/-! ### Blanks -/

theorem blanks_nil : Blanks [] := List.forall_mem_nil _

namespace Datum

/-! ### Writing -/

section

variable {d next : Datum} {key : String} {field : String × Datum} {rest : List Datum}
  {fields : List (String × Datum)} {before space gap behind name text more : List Char}

theorem Written.padded (h : Written d text) : Padded d text := by
  have hpadded := Padded.mk blanks_nil h blanks_nil
  rwa [List.nil_append, List.append_nil] at hpadded

/-- The last item of an array with the blanks around it. -/
theorem written_last (hbefore : Blanks before) (h : Written d text) (hbehind : Blanks behind) :
    WrittenItems d [] (before ++ (text ++ (behind ++ [']']))) := by
  have hlast := WrittenItems.last (.mk hbefore h hbehind)
  rwa [List.append_assoc, List.append_assoc] at hlast

/-- An item of an array with the blanks before it, and more items. -/
theorem written_more (hbefore : Blanks before) (h : Written d text)
    (hmore : WrittenItems next rest more) :
    WrittenItems d (next :: rest) (before ++ (text ++ ',' :: more)) := by
  have hitems := WrittenItems.more (.mk hbefore h blanks_nil) hmore
  rwa [List.append_nil, List.append_assoc] at hitems

/-- The last field of an object with the blanks around it and before its value. -/
theorem writtenField_last (hbefore : Blanks before) (hname : Spelled key.toList name)
    (hspace : Blanks space) (h : Written d text) (hbehind : Blanks behind) :
    WrittenFields (key, d) []
      (before ++ ('"' :: name ++ ':' :: (space ++ (text ++ (behind ++ ['\x7d']))))) := by
  have hlast := WrittenFields.last (.mk hbefore hname blanks_nil) (.mk hspace h hbehind)
  rwa [List.append_nil, List.append_assoc, List.append_assoc, List.append_assoc] at hlast

/-- A field of an object with the blanks before it and before its value, and more fields. -/
theorem writtenField_more (hbefore : Blanks before) (hname : Spelled key.toList name)
    (hspace : Blanks space) (h : Written d text) (hmore : WrittenFields field fields more) :
    WrittenFields (key, d) (field :: fields)
      (before ++ ('"' :: name ++ ':' :: (space ++ (text ++ ',' :: more)))) := by
  have hfields :=
    WrittenFields.more (.mk hbefore hname blanks_nil) (.mk hspace h blanks_nil) hmore
  rwa [List.append_nil, List.append_nil, List.append_assoc, List.append_assoc] at hfields

end

/-- A text between quotes. -/
theorem written_quoted {letters : Text.Letters} (h : letters.Readable) (s : String) :
    Written (.text s) (Text.quoted letters s) := .text (h.spelled s.toList)

theorem spelled_full (s : String) :
    Spelled s.toList (s.toList.flatMap (Text.escape Text.Letters.full) ++ ['"']) :=
  Text.Letters.readable_full.spelled s.toList

/-- A layout puts nothing but blanks between lexemes. -/
structure Layout.IsBlank (layout : Layout) : Prop where
  line : ∀ depth, Blanks (layout.line depth)
  space : Blanks layout.space

theorem Layout.isBlank_oneLine : Layout.oneLine.IsBlank := ⟨fun _ => blanks_nil, blanks_nil⟩

theorem Layout.isBlank_manyLines : Layout.manyLines.IsBlank where
  line _ := List.forall_mem_cons.2 ⟨rfl, fun c hc => by rw [List.eq_of_mem_replicate hc]; rfl⟩
  space := List.forall_mem_singleton.2 rfl

section

variable {layout : Layout}

-- The first item or field of a container is not part of the recursion for the further ones, which
-- takes its text as it is.
mutual
/-- What is written in a layout is a text of the datum. -/
theorem chars_written (hl : layout.IsBlank) (depth : Nat) :
    (d : Datum) → {bound : Nat} → d.Portable bound → Written d (d.chars layout depth)
  | .null, _, _ => .null
  | .bool true, _, _ => .true
  | .bool false, _, _ => .false
  | .integer v, _, _ => .integer v
  | .real _, _, h => by cases h
  | .text s, _, _ => written_quoted Text.Letters.readable_full s
  | .array [], _, _ => .emptyArray blanks_nil
  | .array (item :: rest), _, .array h =>
    .array (itemChars_written hl depth rest (List.forall_mem_cons.1 h).2
      (chars_written hl (depth + 1) item (List.forall_mem_cons.1 h).1))
  | .object [], _, _ => .emptyObject blanks_nil
  | .object ((key, value) :: rest), _, .object h =>
    .object (fieldChars_written hl depth rest (List.forall_mem_cons.1 h).2 key
      (chars_written hl (depth + 1) value (List.forall_mem_cons.1 h).1))
  | .unreadable, _, h => by cases h

theorem itemChars_written (hl : layout.IsBlank) (depth : Nat) : (rest : List Datum) →
    {bound : Nat} → (∀ d ∈ rest, d.Portable bound) → {item : Datum} → {text : List Char} →
    Written item text →
    WrittenItems item rest (layout.line (depth + 1) ++ (text ++ itemChars layout depth rest))
  | [], _, _, _, _, hitem => written_last (hl.line _) hitem (hl.line _)
  | next :: rest, _, h, _, _, hitem =>
    written_more (hl.line _) hitem
      (itemChars_written hl depth rest (List.forall_mem_cons.1 h).2
        (chars_written hl (depth + 1) next (List.forall_mem_cons.1 h).1))

theorem fieldChars_written (hl : layout.IsBlank) (depth : Nat) :
    (rest : List (String × Datum)) → {bound : Nat} →
    (∀ field ∈ rest, field.2.Portable bound) → (key : String) → {value : Datum} →
    {text : List Char} → Written value text →
    WrittenFields (key, value) rest (layout.line (depth + 1) ++ (quoted key ++
      ':' :: (layout.space ++ (text ++ fieldChars layout depth rest))))
  | [], _, _, key, _, _, hvalue =>
    writtenField_last (hl.line _) (spelled_full key) hl.space hvalue (hl.line _)
  | (next, other) :: rest, _, h, key, _, _, hvalue =>
    writtenField_more (hl.line _) (spelled_full key) hl.space hvalue
      (fieldChars_written hl depth rest (List.forall_mem_cons.1 h).2 next
        (chars_written hl (depth + 1) other (List.forall_mem_cons.1 h).1))
end

end

end Datum

/-- The reference codec writes JSON. -/
theorem Codec.writesJson_reference : Codec.reference.WritesJson where
  write h := ⟨_, rfl, (Datum.chars_written Datum.Layout.isBlank_oneLine 0 _ h).padded⟩
  writePretty h := ⟨_, rfl, (Datum.chars_written Datum.Layout.isBlank_manyLines 0 _ h).padded⟩

/-! ### Blanks and marks -/

section

variable {gap rest : List Char} {c : Char}

theorem skipBlanks_append (hgap : Blanks gap) (hc : isBlank c = false) (rest : List Char) :
    Tree.skipBlanks (gap ++ c :: rest) = c :: rest := by
  rw [Tree.skipBlanks, List.dropWhile_append_of_pos hgap, List.dropWhile_cons_of_neg]
  rw [hc]
  exact Bool.false_ne_true

theorem skipBlanks_skipBlanks (cs : List Char) :
    Tree.skipBlanks (Tree.skipBlanks cs) = Tree.skipBlanks cs := List.dropWhile_idempotent _ cs

/-- A tree is read behind the blanks in front of it. -/
theorem tree?_skipBlanks (fuel : Nat) (cs : List Char) :
    Tree.tree? fuel (Tree.skipBlanks cs) = Tree.tree? fuel cs := by
  cases fuel with
  | zero => rfl
  | succ fuel => rw [Tree.tree?, Tree.tree?, skipBlanks_skipBlanks]

theorem items?_skipBlanks (fuel : Nat) (cs : List Char) :
    Tree.items? fuel (Tree.skipBlanks cs) = Tree.items? fuel cs := by
  cases fuel with
  | zero => rfl
  | succ fuel => rw [Tree.items?, Tree.items?, tree?_skipBlanks]

theorem fields?_skipBlanks (fuel : Nat) (cs : List Char) :
    Tree.fields? fuel (Tree.skipBlanks cs) = Tree.fields? fuel cs := by
  cases fuel with
  | zero => rfl
  | succ fuel => rw [Tree.fields?, Tree.fields?, skipBlanks_skipBlanks]

/-- The text is at its end, or goes on with a mark that stands behind a value. -/
def EndsValue (rest : List Char) : Prop := ∀ c ∈ rest.head?, c = ',' ∨ c = ']' ∨ c = '\x7d'

theorem EndsValue.skipBlanks (h : EndsValue rest) (hgap : Blanks gap) :
    Tree.skipBlanks (gap ++ rest) = rest := by
  cases rest with
  | nil =>
    rw [List.append_nil, Tree.skipBlanks]
    exact List.dropWhile_eq_nil_iff.2 hgap
  | cons c rest =>
    refine skipBlanks_append hgap ?_ rest
    rcases h c rfl with rfl | rfl | rfl <;> rfl

/-- Neither blanks nor the marks behind a value go on with a numeral. -/
theorem EndsValue.endsNumeral (h : EndsValue rest) (hgap : Blanks gap) :
    Tree.EndsNumeral (gap ++ rest) := by
  cases gap with
  | nil =>
    intro c hc
    rcases h c hc with rfl | rfl | rfl <;> decide
  | cons blank gap =>
    rintro _ ⟨⟩
    have hblank := hgap blank (List.mem_cons_self ..)
    simp only [isBlank, Bool.or_eq_true, beq_iff_eq] at hblank
    rcases hblank with ((rfl | rfl) | rfl) | rfl <;> decide

theorem endsValue_cons (hc : c = ',' ∨ c = ']' ∨ c = '\x7d') (rest : List Char) :
    EndsValue (c :: rest) := by
  rintro _ ⟨⟩
  exact hc

end

/-! ### Reading

The reader spends fuel on each container, and once more on each of its items or fields. There is a
character for either in the text, so fuel for twice its length is enough. -/

/-- A text of a datum is read where the blanks in front of it have been skipped. It does not look
like the end of an array. -/
structure Reads (bound : Nat) (d : Datum) (text : List Char) : Prop where
  starts : ∃ c tail, text = c :: tail ∧ isBlank c = false ∧ c ≠ ']'
  tree : ∀ {fuel : Nat} {cs rest : List Char}, 2 * text.length ≤ fuel → Tree.EndsNumeral rest →
    Tree.skipBlanks cs = text ++ rest →
    ∃ tree, Tree.tree? fuel cs = some (tree, rest) ∧ Tree.toDatum bound tree = d

/-- A text of a datum with blanks around it is read up to the blanks behind it. -/
structure ReadsPadded (bound : Nat) (d : Datum) (text : List Char) : Prop where
  starts : ∀ rest, ∃ c tail, Tree.skipBlanks (text ++ rest) = c :: tail ∧ c ≠ ']'
  tree : ∀ {fuel : Nat} {rest : List Char}, 2 * text.length ≤ fuel → EndsValue rest →
    ∃ tree behind, Tree.tree? fuel (text ++ rest) = some (tree, behind) ∧
      Tree.skipBlanks behind = rest ∧ Tree.toDatum bound tree = d

/-- The texts of items are read up to the end of their array. -/
structure ReadsItems (bound : Nat) (items : List Datum) (text : List Char) : Prop where
  starts : ∀ rest, ∃ c tail, Tree.skipBlanks (text ++ rest) = c :: tail ∧ c ≠ ']'
  items : ∀ {fuel : Nat} (rest : List Char), 2 * text.length ≤ fuel →
    ∃ trees, Tree.items? fuel (text ++ rest) = some (trees, rest) ∧
      Tree.itemData bound trees = items

/-- The texts of fields are read up to the end of their object. -/
structure ReadsFields (bound : Nat) (fields : List (String × Datum)) (text : List Char) :
    Prop where
  starts : ∀ rest, ∃ tail, Tree.skipBlanks (text ++ rest) = '"' :: tail
  fields : ∀ {fuel : Nat} (rest : List Char), 2 * text.length ≤ fuel →
    ∃ trees, Tree.fields? fuel (text ++ rest) = some (trees, rest) ∧
      Tree.fieldData? bound trees = some fields

section

variable {bound fuel : Nat} {d : Datum} {text before behind rest : List Char} {c : Char}

/-- It is enough to read a text from its first character on. -/
theorem Reads.of_lexeme {tail : List Char} (hc : isBlank c = false) (hbracket : c ≠ ']')
    (h : ∀ {fuel : Nat} {cs rest : List Char}, 2 * tail.length ≤ fuel → Tree.EndsNumeral rest →
      Tree.skipBlanks cs = c :: (tail ++ rest) → ∃ tree,
        Tree.tree? (fuel + 1) cs = some (tree, rest) ∧ Tree.toDatum bound tree = d) :
    Reads bound d (c :: tail) := by
  refine ⟨⟨c, tail, rfl, hc, hbracket⟩, fun {fuel cs rest} hfuel hrest hcs => ?_⟩
  rw [List.length_cons] at hfuel
  obtain ⟨fuel, rfl⟩ : ∃ less, fuel = less + 1 := ⟨fuel - 1, by omega⟩
  exact h (by omega) hrest hcs

theorem Reads.padded (h : Reads bound d text) (hbefore : Blanks before) (hbehind : Blanks behind) :
    ReadsPadded bound d (before ++ (text ++ behind)) := by
  obtain ⟨c, tail, htext, hc, hbracket⟩ := h.starts
  have hskip (rest : List Char) :
      Tree.skipBlanks (before ++ (text ++ behind) ++ rest) = text ++ (behind ++ rest) := by
    rw [List.append_assoc, List.append_assoc, htext]
    exact skipBlanks_append hbefore hc _
  refine ⟨fun rest => ⟨c, tail ++ (behind ++ rest), ?_, hbracket⟩,
    fun {fuel rest} hfuel hrest => ?_⟩
  · rw [hskip, htext, List.cons_append]
  · simp only [List.length_append] at hfuel
    have hroom : 2 * text.length ≤ fuel := by omega
    obtain ⟨tree, htree, hd⟩ := h.tree hroom (hrest.endsNumeral hbehind) (hskip rest)
    exact ⟨tree, behind ++ rest, htree, hrest.skipBlanks hbehind, hd⟩

/-! ### Scalars -/

/-- A character that a numeral starts with. -/
def StartsNumeral (c : Char) : Prop := c.isDigit = true ∨ c = '-'

theorem StartsNumeral.ne (hc : StartsNumeral c) {other : Char} (hdigit : other.isDigit = false)
    (hsign : other ≠ '-') : c ≠ other := by
  rintro rfl
  rcases hc with hc | hc
  · cases hdigit.symm.trans hc
  · exact hsign hc

theorem StartsNumeral.not_blank (hc : StartsNumeral c) : isBlank c = false := by
  have hspace : c ≠ ' ' := hc.ne (by decide) (by decide)
  have htab : c ≠ '\t' := hc.ne (by decide) (by decide)
  have hline : c ≠ '\n' := hc.ne (by decide) (by decide)
  have hreturn : c ≠ '\r' := hc.ne (by decide) (by decide)
  simp [isBlank, hspace, htab, hline, hreturn]

theorem exists_integerText_eq_cons (k : Int) :
    ∃ c tail, Text.integerText k = c :: tail ∧ StartsNumeral c := by
  unfold Text.integerText
  split
  · exact ⟨'-', _, rfl, .inr rfl⟩
  · obtain ⟨c, tail, hdigits, -⟩ := exists_toDigits_eq_cons k.natAbs
    exact ⟨c, tail, hdigits, .inl (Text.isDigit_of_mem_toDigits (hdigits ▸ List.mem_cons_self ..))⟩

/-- What starts like a numeral is read as one. -/
theorem tree?_numeral {cs : List Char} (hc : StartsNumeral c)
    (hcs : Tree.skipBlanks cs = c :: rest) : Tree.tree? (fuel + 1) cs =
      (Tree.numeral? (c :: rest)).map fun (numeral, rest) => (.number numeral, rest) := by
  rw [Tree.tree?, hcs]
  split
  case h_7 => rfl
  all_goals
    rename_i heq
    exact (hc.ne (by decide) (by decide) (List.cons.inj heq).1).elim

theorem reads_integer {k : Int} (hleast : leastWord ≤ k) (hcount : k < wordCount) :
    Reads bound (.integer k) (Text.integerText k) := by
  obtain ⟨c, tail, hcons, hc⟩ := exists_integerText_eq_cons k
  rw [hcons]
  refine .of_lexeme hc.not_blank (hc.ne (by decide) (by decide)) fun _ hrest hcs => ?_
  refine ⟨.number ⟨decide (k < 0), Nat.toDigits 10 k.natAbs, none, none⟩, ?_, ?_⟩
  · rw [tree?_numeral hc hcs, ← List.cons_append, ← hcons, Tree.numeral?_integerText k hrest]
    rfl
  · rw [Tree.toDatum, Numeral.toDatum_of_integer hleast hcount]

theorem exists_pieces_of_spelled {s : String} {spelled : List Char}
    (h : Spelled s.toList spelled) (rest : List Char) :
    ∃ pieces, Tree.pieces? (spelled ++ rest) = some (pieces, rest) ∧
      decodeText? pieces = some s := by
  obtain ⟨pieces, hpieces, hdecode⟩ := h.exists_pieces rest
  refine ⟨pieces, hpieces, ?_⟩
  rw [decodeText?, hdecode, Option.map_some, String.ofList_toList]

theorem reads_text {s : String} {spelled : List Char} (h : Spelled s.toList spelled) :
    Reads bound (.text s) ('"' :: spelled) := by
  refine .of_lexeme rfl (by decide) fun {_ cs rest} _ _ hcs => ?_
  obtain ⟨pieces, hpieces, hdecode⟩ := exists_pieces_of_spelled h rest
  refine ⟨.text pieces, ?_, ?_⟩
  · rw [Tree.tree?, hcs]
    exact congrArg (Option.map _) hpieces
  · rw [Tree.toDatum, hdecode]
    rfl

theorem reads_null : Reads bound .null ['n', 'u', 'l', 'l'] := by
  refine .of_lexeme rfl (by decide) fun _ _ hcs => ⟨.null, ?_, rfl⟩
  rw [Tree.tree?, hcs]
  rfl

theorem reads_true : Reads bound (.bool true) ['t', 'r', 'u', 'e'] := by
  refine .of_lexeme rfl (by decide) fun _ _ hcs => ⟨.bool true, ?_, rfl⟩
  rw [Tree.tree?, hcs]
  rfl

theorem reads_false : Reads bound (.bool false) ['f', 'a', 'l', 's', 'e'] := by
  refine .of_lexeme rfl (by decide) fun _ _ hcs => ⟨.bool false, ?_, rfl⟩
  rw [Tree.tree?, hcs]
  rfl

/-! ### Arrays -/

theorem reads_emptyArray {gap : List Char} (hgap : Blanks gap) :
    Reads (bound + 1) (.array []) ('[' :: (gap ++ [']'])) := by
  refine .of_lexeme rfl (by decide) fun {_ _ rest} _ _ hcs => ⟨.array [], ?_, rfl⟩
  rw [List.append_assoc, List.singleton_append] at hcs
  rw [Tree.tree?, hcs]
  simp only [skipBlanks_append hgap (c := ']') rfl]

theorem reads_array {items : List Datum} (h : ReadsItems bound items text) :
    Reads (bound + 1) (.array items) ('[' :: text) := by
  refine .of_lexeme rfl (by decide) fun {fuel cs rest} hfuel _ hcs => ?_
  obtain ⟨c, tail, hskip, hbracket⟩ := h.starts rest
  obtain ⟨trees, htrees, hitems⟩ := h.items rest hfuel
  rw [← items?_skipBlanks, hskip] at htrees
  refine ⟨.array trees, ?_, ?_⟩
  · rw [Tree.tree?, hcs]
    simp only [hskip]
    split
    · rename_i heq
      exact (hbracket (List.cons.inj heq).1).elim
    · exact congrArg (Option.map _) htrees
  · rw [Tree.toDatum, hitems]

theorem readsItems_last (h : ReadsPadded bound d text) : ReadsItems bound [d] (text ++ [']']) := by
  refine ⟨fun rest => ?_, fun {fuel} rest hfuel => ?_⟩
  · rw [List.append_assoc]
    exact h.starts _
  · rw [List.length_append, List.length_singleton] at hfuel
    obtain ⟨fuel, rfl⟩ : ∃ less, fuel = less + 1 := ⟨fuel - 1, by omega⟩
    have hroom : 2 * text.length ≤ fuel := by omega
    obtain ⟨tree, behind, htree, hskip, hd⟩ := h.tree hroom (endsValue_cons (.inr (.inl rfl)) rest)
    refine ⟨[tree], ?_, ?_⟩
    · rw [Tree.items?, List.append_assoc, List.singleton_append, htree]
      simp [hskip]
    · rw [Tree.itemData, hd]
      rfl

theorem readsItems_more {items : List Datum} {more : List Char} (h : ReadsPadded bound d text)
    (hmore : ReadsItems bound items more) :
    ReadsItems bound (d :: items) (text ++ ',' :: more) := by
  refine ⟨fun rest => ?_, fun {fuel} rest hfuel => ?_⟩
  · rw [List.append_assoc]
    exact h.starts _
  · rw [List.length_append, List.length_cons] at hfuel
    obtain ⟨fuel, rfl⟩ : ∃ less, fuel = less + 1 := ⟨fuel - 1, by omega⟩
    have hroom : 2 * text.length ≤ fuel := by omega
    have hmoreRoom : 2 * more.length ≤ fuel := by omega
    obtain ⟨tree, behind, htree, hskip, hd⟩ :=
      h.tree hroom (endsValue_cons (.inl rfl) (more ++ rest))
    obtain ⟨trees, htrees, hitems⟩ := hmore.items rest hmoreRoom
    refine ⟨tree :: trees, ?_, ?_⟩
    · rw [Tree.items?, List.append_assoc, List.cons_append, htree]
      simp [hskip, htrees]
    · rw [Tree.itemData, hd, hitems]

/-! ### Objects -/

theorem reads_emptyObject {gap : List Char} (hgap : Blanks gap) :
    Reads (bound + 1) (.object []) ('\x7b' :: (gap ++ ['\x7d'])) := by
  refine .of_lexeme rfl (by decide) fun {_ _ rest} _ _ hcs => ⟨.object [], ?_, rfl⟩
  rw [List.append_assoc, List.singleton_append] at hcs
  rw [Tree.tree?, hcs]
  simp only [skipBlanks_append hgap (c := '\x7d') rfl]

theorem reads_object {fields : List (String × Datum)} (h : ReadsFields bound fields text) :
    Reads (bound + 1) (.object fields) ('\x7b' :: text) := by
  refine .of_lexeme rfl (by decide) fun {fuel cs rest} hfuel _ hcs => ?_
  obtain ⟨tail, hskip⟩ := h.starts rest
  obtain ⟨trees, htrees, hfields⟩ := h.fields rest hfuel
  rw [← fields?_skipBlanks, hskip] at htrees
  refine ⟨.object trees, ?_, ?_⟩
  · rw [Tree.tree?, hcs]
    simp only [hskip]
    exact congrArg (Option.map _) htrees
  · rw [Tree.toDatum, hfields]
    rfl

/-- A key is read up to its colon. -/
theorem PaddedKey.exists_pieces {key : String} {name : List Char} (h : PaddedKey key name)
    (rest : List Char) :
    ∃ tail pieces behind, Tree.skipBlanks (name ++ ':' :: rest) = '"' :: tail ∧
      Tree.pieces? tail = some (pieces, behind) ∧ Tree.skipBlanks behind = ':' :: rest ∧
      decodeText? pieces = some key := by
  cases h with
  | @mk before spelled behind hbefore h hbehind =>
    obtain ⟨pieces, hpieces, hkey⟩ := exists_pieces_of_spelled h (behind ++ ':' :: rest)
    refine ⟨spelled ++ (behind ++ ':' :: rest), pieces, behind ++ ':' :: rest, ?_, hpieces,
      skipBlanks_append hbehind rfl rest, hkey⟩
    rw [List.append_assoc, List.cons_append, List.append_assoc, skipBlanks_append hbefore rfl]

theorem readsFields_last {key : String} {name : List Char} (hkey : PaddedKey key name)
    (h : ReadsPadded bound d text) :
    ReadsFields bound [(key, d)] (name ++ ':' :: (text ++ ['\x7d'])) := by
  have hassoc (rest : List Char) : name ++ ':' :: (text ++ ['\x7d']) ++ rest =
      name ++ ':' :: (text ++ '\x7d' :: rest) := by simp
  refine ⟨fun rest => ?_, fun {fuel} rest hfuel => ?_⟩
  · obtain ⟨tail, -, -, hstart, -⟩ := hkey.exists_pieces (text ++ '\x7d' :: rest)
    exact ⟨tail, by rw [hassoc, hstart]⟩
  · simp only [List.length_append, List.length_cons, List.length_nil] at hfuel
    obtain ⟨fuel, rfl⟩ : ∃ less, fuel = less + 1 := ⟨fuel - 1, by omega⟩
    obtain ⟨tail, pieces, afterKey, hstart, hpieces, hcolon, hname⟩ :=
      hkey.exists_pieces (text ++ '\x7d' :: rest)
    have hroom : 2 * text.length ≤ fuel := by omega
    obtain ⟨tree, behind, htree, hskip, hd⟩ := h.tree hroom (endsValue_cons (.inr (.inr rfl)) rest)
    refine ⟨[(pieces, tree)], ?_, ?_⟩
    · rw [hassoc, Tree.fields?, hstart]
      simp [hpieces, hcolon, htree, hskip]
    · simp [Tree.fieldData?, hname, hd]

theorem readsFields_more {key : String} {name more : List Char}
    {fields : List (String × Datum)} (hkey : PaddedKey key name) (h : ReadsPadded bound d text)
    (hmore : ReadsFields bound fields more) :
    ReadsFields bound ((key, d) :: fields) (name ++ ':' :: (text ++ ',' :: more)) := by
  have hassoc (rest : List Char) : name ++ ':' :: (text ++ ',' :: more) ++ rest =
      name ++ ':' :: (text ++ ',' :: (more ++ rest)) := by simp
  refine ⟨fun rest => ?_, fun {fuel} rest hfuel => ?_⟩
  · obtain ⟨tail, -, -, hstart, -⟩ := hkey.exists_pieces (text ++ ',' :: (more ++ rest))
    exact ⟨tail, by rw [hassoc, hstart]⟩
  · simp only [List.length_append, List.length_cons] at hfuel
    obtain ⟨fuel, rfl⟩ : ∃ less, fuel = less + 1 := ⟨fuel - 1, by omega⟩
    obtain ⟨tail, pieces, afterKey, hstart, hpieces, hcolon, hname⟩ :=
      hkey.exists_pieces (text ++ ',' :: (more ++ rest))
    have hroom : 2 * text.length ≤ fuel := by omega
    have hmoreRoom : 2 * more.length ≤ fuel := by omega
    obtain ⟨tree, behind, htree, hskip, hd⟩ :=
      h.tree hroom (endsValue_cons (.inl rfl) (more ++ rest))
    obtain ⟨trees, htrees, hfields⟩ := hmore.fields rest hmoreRoom
    refine ⟨(pieces, tree) :: trees, ?_, ?_⟩
    · rw [hassoc, Tree.fields?, hstart]
      simp [hpieces, hcolon, htree, hskip, htrees]
    · simp [Tree.fieldData?, hname, hd, hfields]

end

/-! ### Every text -/

namespace Datum

mutual
/-- Every text of a datum is read as the datum. -/
theorem Written.reads : {d : Datum} → {text : List Char} → Written d text → {bound : Nat} →
    d.Portable bound → Reads bound d text
  | _, _, .null, _, _ => reads_null
  | _, _, .true, _, _ => reads_true
  | _, _, .false, _, _ => reads_false
  | _, _, .integer _, _, .integer hleast hcount => reads_integer hleast hcount
  | _, _, .text h, _, _ => reads_text h
  | _, _, .emptyArray hgap, _, .array _ => reads_emptyArray hgap
  | _, _, .array h, _, .array hitems => reads_array (h.reads hitems)
  | _, _, .emptyObject hgap, _, .object _ => reads_emptyObject hgap
  | _, _, .object h, _, .object hfields => reads_object (h.reads hfields)

theorem Padded.reads : {d : Datum} → {text : List Char} → Padded d text → {bound : Nat} →
    d.Portable bound → ReadsPadded bound d text
  | _, _, .mk hbefore h hbehind, _, hd => (h.reads hd).padded hbefore hbehind

theorem WrittenItems.reads : {item : Datum} → {rest : List Datum} → {text : List Char} →
    WrittenItems item rest text → {bound : Nat} → (∀ d ∈ item :: rest, d.Portable bound) →
    ReadsItems bound (item :: rest) text
  | _, _, _, .last h, _, hitems => readsItems_last (h.reads (List.forall_mem_cons.1 hitems).1)
  | _, _, _, .more h hmore, _, hitems =>
    readsItems_more (h.reads (List.forall_mem_cons.1 hitems).1)
      (hmore.reads (List.forall_mem_cons.1 hitems).2)

theorem WrittenFields.reads : {field : String × Datum} → {rest : List (String × Datum)} →
    {text : List Char} → WrittenFields field rest text → {bound : Nat} →
    (∀ other ∈ field :: rest, other.2.Portable bound) → ReadsFields bound (field :: rest) text
  | _, _, _, .last hkey h, _, hfields =>
    readsFields_last hkey (h.reads (List.forall_mem_cons.1 hfields).1)
  | _, _, _, .more hkey h hmore, _, hfields =>
    readsFields_more hkey (h.reads (List.forall_mem_cons.1 hfields).1)
      (hmore.reads (List.forall_mem_cons.1 hfields).2)
end

end Datum

/-- The reference codec reads JSON. -/
theorem Codec.readsJson_reference : Codec.reference.ReadsJson := by
  intro d text hd htext
  have hroom : 2 * text.length ≤ 2 * text.length + 1 := Nat.le_succ _
  have hend : EndsValue [] := fun _ hc => nomatch hc
  obtain ⟨tree, behind, htree, hskip, hdatum⟩ := (htext.reads hd).tree hroom hend
  rw [List.append_nil] at htree
  have hread : Tree.ofText? (String.ofList text) = some tree := by
    rw [Tree.ofText?, String.toList_ofList]
    simp only [htree, hskip, if_true]
  change (Tree.ofText? _).map _ = _
  rw [hread, Option.map_some, hdatum]

end Reshape
