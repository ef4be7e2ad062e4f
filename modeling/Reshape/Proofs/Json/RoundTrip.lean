import Reshape.Json.Writer
import Reshape.Proofs.Entries
import Reshape.Proofs.Json.Contents
import Reshape.Proofs.Json.Reading

/-!
# Documents read back from their texts

A document has three texts: the one for reading, which is written here, and the two that a codec
writes of its datum. All of them are texts of the datum, so that a codec reads the datum from each,
and the document of that datum is the one it was made of.

* `Json.Portable`, the documents that texts can carry: no key twice, exact integers only, and
  containers that do not nest too deep;
* `portable_ofJson`: the data of such documents are ones that every codec carries;
* `compact_written`: the text for reading is a text of the datum;
* `toJson?_ofJson`: the datum gives the document back;
* `ofText?_of_texts`.
-/

namespace Reshape

/-- An exact integer is given to a codec as an integer. -/
theorem Datum.ofNumber_ofInt {k : Int} (h : k.natAbs ≤ 2 ^ 53) :
    ofNumber (Number.ofInt k) = integer k := by
  have hfinite : (Number.ofInt k).isFinite := by
    rw [Number.ofInt_eq_finite h]
    rfl
  have hword : IsWord k := by
    unfold IsWord leastWord greatestWord
    omega
  have hrange : leastWord ≤ k ∧ k ≤ greatestWord + 1 := ⟨hword.1, Int.le_add_one hword.2⟩
  rw [ofNumber, if_pos hfinite, Number.toInt?_ofInt h, Option.filter_some,
    if_pos (decide_eq_true hrange)]
  exact congrArg integer (toInt_nearestWord_of_isWord hword)

namespace Json

/-- No object of the value holds a key twice, its numbers are integers up to 2⁵³, and its containers
nest no deeper than the bound. -/
structure Portable (bound : Nat) (v : Json) : Prop where
  keys : v.WellFormed
  numbers : v.EveryNumber Number.IsExact
  nesting : v.depth ≤ bound

namespace Portable

variable {bound : Nat}

/-- A container needs room for one level. -/
theorem exists_bound {v : Json} (h : v.Portable bound)
    (hv : (∃ items, v = array items) ∨ ∃ fields, v = object fields) :
    ∃ less, bound = less + 1 := by
  have hdepth : 1 ≤ v.depth := by
    rcases hv with ⟨items, rfl⟩ | ⟨fields, rfl⟩ <;> exact Nat.le_add_left ..
  exact ⟨bound - 1, by have := h.nesting; omega⟩

theorem items {items : List Json} (h : (array items).Portable (bound + 1)) :
    ∀ item ∈ items, item.Portable bound := fun item hitem =>
  ⟨wellFormedItems_iff.1 h.keys item hitem, everyNumberOfItems_iff.1 h.numbers item hitem,
    itemsDepth_le_iff.1 (Nat.le_of_succ_le_succ h.nesting) item hitem⟩

theorem fields {fields : List (String × Json)} (h : (object fields).Portable (bound + 1)) :
    ∀ field ∈ fields, field.2.Portable bound := fun field hfield =>
  ⟨wellFormedFields_iff.1 h.keys.2 field hfield, everyNumberOfFields_iff.1 h.numbers field hfield,
    fieldsDepth_le_iff.1 (Nat.le_of_succ_le_succ h.nesting) field hfield⟩

end Portable

/-! ### The datum of a document -/

section

variable {n : Number}

theorem exists_ofNumber_eq (h : n.IsExact) :
    ∃ k : Int, k.natAbs ≤ 2 ^ 53 ∧ n = Number.ofInt k ∧ Datum.ofNumber n = .integer k := by
  obtain ⟨k, hk, hn⟩ := h.exists_eq_ofInt
  exact ⟨k, hk, hn, by rw [hn, Datum.ofNumber_ofInt hk]⟩

theorem portable_ofNumber (h : n.IsExact) (bound : Nat) :
    (Datum.ofNumber n).Portable bound := by
  obtain ⟨k, hk, -, hdatum⟩ := exists_ofNumber_eq h
  have hword : leastWord ≤ k ∧ k < wordCount := by
    unfold leastWord wordCount
    omega
  rw [hdatum]
  exact .integer hword.1 hword.2

theorem toJson?_ofNumber (h : n.IsExact) : (Datum.ofNumber n).toJson? = some (.number n) := by
  obtain ⟨k, -, hn, hdatum⟩ := exists_ofNumber_eq h
  rw [hdatum, Datum.toJson?, ofInt, hn]

theorem written_plainText (h : n.IsExact) : (Datum.ofNumber n).Written n.plainText := by
  obtain ⟨k, hk, hn, hdatum⟩ := exists_ofNumber_eq h
  rw [hdatum, hn, Number.plainText_ofInt hk]
  exact .integer k

end

mutual
/-- The datum of a document that texts can carry is one that every codec carries. -/
theorem portable_ofJson : (v : Json) → {bound : Nat} → v.Portable bound →
    (Datum.ofJson v).Portable bound
  | .null, _, _ => .null
  | .bool b, _, _ => .bool b
  | .number _, bound, h => portable_ofNumber h.numbers bound
  | .text s, _, _ => .text s
  | .array items, _, h => by
    obtain ⟨bound, rfl⟩ := h.exists_bound (.inl ⟨_, rfl⟩)
    exact .array (portable_ofItems items h.items)
  | .object fields, _, h => by
    obtain ⟨bound, rfl⟩ := h.exists_bound (.inr ⟨_, rfl⟩)
    exact .object (portable_ofFields fields h.fields)

theorem portable_ofItems : (items : List Json) → {bound : Nat} →
    (∀ item ∈ items, item.Portable bound) → ∀ d ∈ Datum.ofItems items, d.Portable bound
  | [], _, _ => List.forall_mem_nil _
  | item :: rest, _, h => by
    obtain ⟨hitem, hrest⟩ := List.forall_mem_cons.1 h
    exact List.forall_mem_cons.2 ⟨portable_ofJson item hitem, portable_ofItems rest hrest⟩

theorem portable_ofFields : (fields : List (String × Json)) → {bound : Nat} →
    (∀ field ∈ fields, field.2.Portable bound) →
    ∀ field ∈ Datum.ofFields fields, field.2.Portable bound
  | [], _, _ => List.forall_mem_nil _
  | (_, value) :: rest, _, h => by
    obtain ⟨hvalue, hrest⟩ := List.forall_mem_cons.1 h
    exact List.forall_mem_cons.2 ⟨portable_ofJson value hvalue, portable_ofFields rest hrest⟩
end

mutual
/-- The datum of a document gives the document back. -/
theorem toJson?_ofJson : (v : Json) → v.WellFormed → v.EveryNumber Number.IsExact →
    (Datum.ofJson v).toJson? = some v
  | .null, _, _ => rfl
  | .bool _, _, _ => rfl
  | .number _, _, h => toJson?_ofNumber h
  | .text _, _, _ => rfl
  | .array items, hkeys, h => by
    rw [Datum.ofJson, Datum.toJson?, toItems?_ofItems items hkeys h, Option.map_some]
  | .object fields, hkeys, h => by
    rw [Datum.ofJson, Datum.toJson?, toFields?_ofFields fields hkeys.2 h, Option.map_some,
      Entries.ofList_of_wellFormed hkeys.1]

theorem toItems?_ofItems : (items : List Json) → WellFormedItems items →
    EveryNumberOfItems Number.IsExact items → Datum.toItems? (Datum.ofItems items) = some items
  | [], _, _ => rfl
  | item :: rest, hkeys, h => by
    simp [Datum.ofItems, Datum.toItems?, toJson?_ofJson item hkeys.1 h.1,
      toItems?_ofItems rest hkeys.2 h.2]

theorem toFields?_ofFields : (fields : List (String × Json)) → WellFormedFields fields →
    EveryNumberOfFields Number.IsExact fields →
    Datum.toFields? (Datum.ofFields fields) = some fields
  | [], _, _ => rfl
  | (_, value) :: rest, hkeys, h => by
    simp [Datum.ofFields, Datum.toFields?, toJson?_ofJson value hkeys.1 h.1,
      toFields?_ofFields rest hkeys.2 h.2]
end

/-! ### The text for reading -/

theorem spelled_plain (s : String) :
    Spelled s.toList (s.toList.flatMap (Text.escape Text.Letters.plain) ++ ['"']) :=
  Text.Letters.readable_plain.spelled s.toList

mutual
/-- The text for reading is a text of the datum. -/
theorem compact_written : (v : Json) → v.EveryNumber Number.IsExact →
    (Datum.ofJson v).Written v.compact
  | .null, _ => .null
  | .bool true, _ => .true
  | .bool false, _ => .false
  | .number _, h => written_plainText h
  | .text s, _ => Datum.written_quoted Text.Letters.readable_plain s
  | .array [], _ => .emptyArray blanks_nil
  | .array (item :: rest), h => .array (compactItems_written rest h.2 (compact_written item h.1))
  | .object [], _ => .emptyObject blanks_nil
  | .object ((key, value) :: rest), h =>
    .object (compactFields_written rest h.2 key (compact_written value h.1))

theorem compactItems_written : (rest : List Json) → EveryNumberOfItems Number.IsExact rest →
    {item : Datum} → {text : List Char} → item.Written text →
    Datum.WrittenItems item (Datum.ofItems rest) (text ++ compactItems rest)
  | [], _, _, _, hitem => Datum.written_last blanks_nil hitem blanks_nil
  | next :: rest, h, _, _, hitem =>
    Datum.written_more blanks_nil hitem
      (compactItems_written rest h.2 (compact_written next h.1))

theorem compactFields_written : (rest : List (String × Json)) →
    EveryNumberOfFields Number.IsExact rest → (key : String) → {value : Datum} →
    {text : List Char} → value.Written text →
    Datum.WrittenFields (key, value) (Datum.ofFields rest)
      (quoted key ++ ':' :: (text ++ compactFields rest))
  | [], _, key, _, _, hvalue =>
    Datum.writtenField_last blanks_nil (spelled_plain key) blanks_nil hvalue blanks_nil
  | (next, other) :: rest, h, key, _, _, hvalue =>
    Datum.writtenField_more blanks_nil (spelled_plain key) blanks_nil hvalue
      (compactFields_written rest h.2 next (compact_written other h.1))
end

/-! ### All three texts -/

/-- Each text of the datum of a document denotes the document. -/
theorem ofText?_of_padded {codec : Codec} (hreads : codec.ReadsJson) {v : Json}
    (hv : v.Portable deepestNesting) {text : List Char} (h : v.toDatum.Padded text) :
    ofText? codec (String.ofList text) = some v := by
  have hread : codec.read (String.ofList text) = some v.toDatum := hreads (portable_ofJson v hv) h
  rw [ofText?, hread]
  exact toJson?_ofJson v hv.keys hv.numbers

/-- **All three texts of a document denote exactly the document**, the order of the keys included,
whatever its strings and keys are, if its numbers are integers up to 2⁵³ and its containers nest at
most 127 deep. This holds for every codec that writes JSON texts and reads each of them. -/
theorem ofText?_of_texts {codec : Codec} (hwrites : codec.WritesJson) (hreads : codec.ReadsJson)
    {v : Json} (hkeys : v.WellFormed) (hnumbers : v.EveryNumber Number.IsExact)
    (hnesting : v.depth ≤ 127) :
    ofText? codec v.render = some v ∧
      (∃ text, v.toJsonText? codec = some text ∧ ofText? codec text = some v) ∧
      ∃ text, v.toPrettyText? codec = some text ∧ ofText? codec text = some v := by
  have hv : v.Portable deepestNesting := ⟨hkeys, hnumbers, hnesting⟩
  have hd : v.toDatum.Portable deepestNesting := portable_ofJson v hv
  obtain ⟨text, hwrite, htext⟩ := hwrites.write hd
  obtain ⟨pretty, hwritePretty, hpretty⟩ := hwrites.writePretty hd
  exact ⟨ofText?_of_padded hreads hv (compact_written v hnumbers).padded,
    ⟨_, hwrite, ofText?_of_padded hreads hv htext⟩,
    ⟨_, hwritePretty, ofText?_of_padded hreads hv hpretty⟩⟩

/-- The keys of an object have a quote, a backslash, a control character and letters beyond ASCII,
and they keep their order. One of its numbers is the lowest that is carried. -/
theorem ofText?_of_texts_of_escapes : ∃ v : Json,
    v = .object [("é\"\\", .array [.number (.ofInt (-2 ^ 53)), .object [], .null]),
      ("\x01\x7f", .text "/\n𝄞")] ∧
    Codec.reference.WritesJson ∧ Codec.reference.ReadsJson ∧
    v.WellFormed ∧ v.EveryNumber Number.IsExact ∧ v.depth ≤ 127 ∧
    ofText? .reference v.render = some v ∧
      (∃ text, v.toJsonText? .reference = some text ∧ ofText? .reference text = some v) ∧
      ∃ text, v.toPrettyText? .reference = some text ∧ ofText? .reference text = some v := by
  have hnumber : (Number.ofInt (-2 ^ 53)).IsExact := Number.isExact_ofInt (by decide)
  generalize Number.ofInt (-2 ^ 53) = lowest at hnumber ⊢
  refine ⟨_, rfl, Codec.writesJson_reference, Codec.readsJson_reference, ?_⟩
  have hkeys : WellFormed (.object [("é\"\\", .array [.number lowest, .object [], .null]),
      ("\x01\x7f", .text "/\n𝄞")]) := by
    simp [WellFormed, WellFormedItems, WellFormedFields, Entries.WellFormed, Entries.keys]
  have hnumbers : EveryNumber Number.IsExact
      (.object [("é\"\\", .array [.number lowest, .object [], .null]),
        ("\x01\x7f", .text "/\n𝄞")]) :=
    ⟨⟨hnumber, trivial, trivial, trivial⟩, trivial, trivial⟩
  have hnesting : depth (.object [("é\"\\", .array [.number lowest, .object [], .null]),
      ("\x01\x7f", .text "/\n𝄞")]) ≤ 127 := by
    simp [depth, itemsDepth, fieldsDepth]
  exact ⟨hkeys, hnumbers, hnesting, ofText?_of_texts Codec.writesJson_reference
    Codec.readsJson_reference hkeys hnumbers hnesting⟩

end Json

end Reshape
