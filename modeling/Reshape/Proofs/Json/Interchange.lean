import Mathlib.Data.List.Nodup
import Mathlib.Data.List.Perm.Basic
import Mathlib.Data.List.Perm.Subperm
import Reshape.Json.Equality
import Reshape.Proofs.Json.Alike
import Reshape.Proofs.Json.Contents
import Reshape.Proofs.Json.Laws
import Reshape.Proofs.Number.IntegerText

/-!
# Exchanged values decide equality

Where all numbers are finite, equality of documents, equality of the values they are exchanged as,
and being alike up to the order of keys and the sign of zero are one relation, whatever the library
of values is. They are shown to imply each other in a circle, each time by an induction on the
document.

* `Number.SameValue`, and `view_ofNumber`, what is exchanged for a number;
* `sameLayer_collect`: maps forget the order of distinct keys;
* `Json.Finite`, the documents without infinities, and without what is no number;
* `alike_of_equal`, `equal_of_alike` and `equal_of_exchanged`, the circle;
* `toJson_ofJson_equal`: the way there and back gives an equal document;
* `equal_iff_exchanged`.
-/

namespace Reshape

/-! ### Numbers -/

namespace Number

/-- The same number but for the sign of zero. -/
def SameValue (m n : Number) : Prop := m = n ∨ m.isZero ∧ n.isZero

theorem SameValue.refl (n : Number) : SameValue n n := .inl rfl

theorem sameValue_of_beq {m n : Number} (hm : m.isFinite) (hn : n.isFinite)
    (h : (m == n) = true) : SameValue m n := by
  cases m with
  | finite negative units hu =>
    cases n with
    | finite negative' units' hu' =>
      have hsigned : signed negative units = signed negative' units' := eq_of_beq h
      by_cases hzero : units = 0
      · have hzero' : units' = 0 := by
          unfold signed at hsigned
          split at hsigned <;> split at hsigned <;> omega
        exact .inr ⟨beq_iff_eq.2 hzero, beq_iff_eq.2 hzero'⟩
      · have hsame : negative = negative' ∧ units = units' := by
          cases negative <;> cases negative' <;>
            simp only [signed, Bool.false_eq_true, if_true, if_false] at hsigned <;>
            first | exact ⟨rfl, by omega⟩ | omega
        obtain ⟨rfl, rfl⟩ := hsame
        exact .inl rfl
    | _ => cases hn
  | _ => cases hm

/-- The units in a number without a fraction. -/
theorem extent_of_toInt? {n : Number} {v : Int} (h : n.toInt? = some v) :
    n.extent = some (v * unitsPerOne) := by
  unfold toInt? at h
  split at h
  · rename_i hintegral
    cases n with
    | finite negative units hu =>
      have hunits : units / unitsPerOne * unitsPerOne = units :=
        Nat.div_mul_cancel (Nat.dvd_of_mod_eq_zero (eq_of_beq hintegral))
      cases h
      rw [extent, Option.some.injEq]
      conv => lhs; rw [← hunits]
      cases negative with
      | false => exact Int.natCast_mul _ _
      | true =>
        simp only [signed, if_true]
        rw [Int.natCast_mul, Int.neg_mul]
    | _ => cases hintegral
  · cases h

theorem SameValue.symm {m n : Number} (h : SameValue m n) : SameValue n m :=
  h.imp Eq.symm And.symm

theorem SameValue.trans {l m n : Number} (h : SameValue l m) (h' : SameValue m n) :
    SameValue l n := by
  rcases h with rfl | h
  · exact h'
  · rcases h' with rfl | h'
    · exact .inr h
    · exact .inr ⟨h.1, h'.2⟩

/-- A zero of either sign is the integer zero. -/
theorem toInt?_of_isZero {n : Number} (h : n.isZero) : n.toInt? = some 0 := by
  cases n with
  | finite negative units hu =>
    obtain rfl : units = 0 := eq_of_beq h
    have hintegral : (finite negative 0 hu).isIntegral = true := by
      rw [isIntegral, Nat.zero_mod]
      rfl
    rw [toInt?, if_pos hintegral, truncate?, Nat.zero_div]
    cases negative <;> rfl
  | _ => cases h

theorem isFinite_of_isZero {n : Number} (h : n.isZero) : n.isFinite := by
  cases n with
  | finite => rfl
  | _ => cases h

/-- Numbers of one integer are equal. -/
theorem beq_of_toInt? {m n : Number} {v : Int} (hm : m.toInt? = some v)
    (hn : n.toInt? = some v) : (m == n) = true := by
  change related (· == ·) m n = true
  simp only [related, extent_of_toInt? hm, extent_of_toInt? hn, beq_self_eq_true]

end Number

/-- The kind of a layer. -/
def Layer.kind {Value Num Map : Type} : Layer Value Num Map → Json.Kind
  | null => .null
  | bool _ => .boolean
  | number _ => .number
  | text _ => .text
  | array _ => .array
  | object _ => .object

namespace Interchange

variable {lib : Interchange}

theorem SameLayer.kind_eq {layer other : Layer lib.Value lib.Num lib.Map}
    (h : lib.SameLayer layer other) : layer.kind = other.kind := by
  cases h <;> rfl

theorem equal_wrap_iff (hlib : lib.Lawful) {layer other : Layer lib.Value lib.Num lib.Map} :
    lib.equal (lib.wrap layer) (lib.wrap other) = true ↔ lib.SameLayer layer other := by
  rw [hlib.layers, lib.view_wrap, lib.view_wrap]

/-! ### Numbers of a library -/

/-- An integer below the bound is a word. -/
theorem isWord_of_lt_wordBound {v : Int} (h : v.natAbs < wordBound) : IsWord v := by
  unfold wordBound at h
  unfold IsWord leastWord greatestWord
  omega

theorem view_ofNumber_of_toInt? {n : Number} {v : Int} (h : n.isFinite) (hv : n.toInt? = some v)
    (hbound : v.natAbs < wordBound) :
    lib.view (lib.ofNumber n) = .number (lib.ofWord (nearestWord v)) := by
  rw [ofNumber, if_pos h, hv, Option.filter_some, if_pos (decide_eq_true hbound)]
  exact lib.view_wrap _

/-- A finite number is exchanged as the word of its integer, or else as a double. -/
theorem view_ofNumber (hlib : lib.Lawful) {n : Number} (h : n.isFinite) :
    (∃ v, n.toInt? = some v ∧ v.natAbs < wordBound ∧
        lib.view (lib.ofNumber n) = .number (lib.ofWord (nearestWord v))) ∨
      ∃ double, lib.ofDouble? n = some double ∧
        lib.view (lib.ofNumber n) = .number double := by
  obtain ⟨double, hdouble⟩ := hlib.keeps.exists_double h
  cases hv : n.toInt?.filter fun v => decide (v.natAbs < wordBound) with
  | none =>
    refine .inr ⟨double, hdouble, ?_⟩
    rw [ofNumber, if_pos h, hv]
    simp only [hdouble, lib.view_wrap]
  | some v =>
    obtain ⟨hvalue, hbound⟩ := Option.filter_eq_some_iff.1 hv
    have hword := of_decide_eq_true hbound
    exact .inl ⟨v, hvalue, hword, view_ofNumber_of_toInt? h hvalue hword⟩

/-- Numbers that differ in the sign of zero at most are exchanged as equal ones. -/
theorem equal_ofNumber_of_sameValue (hlib : lib.Lawful) {m n : Number}
    (h : Number.SameValue m n) (hm : m.isFinite) :
    lib.equal (lib.ofNumber m) (lib.ofNumber n) = true := by
  rw [hlib.layers]
  rcases h with rfl | ⟨hzero, hzero'⟩
  · rcases view_ofNumber hlib hm with ⟨v, -, -, hview⟩ | ⟨double, hdouble, hview⟩
    · rw [hview]
      exact .number ((hlib.compares.words _ _).2 rfl)
    · rw [hview]
      exact .number ((hlib.compares.doubles hdouble hdouble).2 (Number.beq_self hm))
  · rw [view_ofNumber_of_toInt? hm (Number.toInt?_of_isZero hzero) (by decide),
      view_ofNumber_of_toInt? (Number.isFinite_of_isZero hzero') (Number.toInt?_of_isZero hzero')
        (by decide)]
    exact .number ((hlib.compares.words _ _).2 rfl)

/-- Numbers that are exchanged as equal ones are equal. -/
theorem beq_of_ofNumber_equal (hlib : lib.Lawful) {m n : Number} (hm : m.isFinite)
    (hn : n.isFinite) (h : lib.equal (lib.ofNumber m) (lib.ofNumber n) = true) :
    (m == n) = true := by
  rw [hlib.layers] at h
  rcases view_ofNumber hlib hm with ⟨v, hv, hbound, hview⟩ | ⟨double, hdouble, hview⟩ <;>
    rcases view_ofNumber hlib hn with ⟨w, hw, hbound', hview'⟩ | ⟨other, hother, hview'⟩ <;>
    rw [hview, hview'] at h <;> cases h with | number h => ?_
  · have hsame : (nearestWord v).toInt = (nearestWord w).toInt :=
      congrArg Int64.toInt ((hlib.compares.words _ _).1 h)
    rw [toInt_nearestWord_of_isWord (isWord_of_lt_wordBound hbound),
      toInt_nearestWord_of_isWord (isWord_of_lt_wordBound hbound')] at hsame
    subst hsame
    exact Number.beq_of_toInt? hv hw
  · rw [hlib.compares.wordDouble _ hother] at h
    cases h
  · rw [hlib.compares.doubleWord _ hdouble] at h
    cases h
  · exact (hlib.compares.doubles hdouble hother).1 h

/-- The double of what is exchanged for a number is an equal number. -/
theorem exists_toDouble?_beq (hlib : lib.Lawful) {n : Number} (h : n.isFinite) :
    ∃ m double, lib.view (lib.ofNumber n) = .number double ∧ lib.toDouble? double = some m ∧
      (m == n) = true := by
  rcases view_ofNumber hlib h with ⟨v, hv, hbound, hview⟩ | ⟨double, hdouble, hview⟩
  · have hexact : v.natAbs ≤ 2 ^ 53 := by
      unfold wordBound at hbound
      omega
    refine ⟨Number.ofInt v, _, hview, ?_, Number.beq_of_toInt? (Number.toInt?_ofInt hexact) hv⟩
    rw [hlib.keeps.word, Number.ofWord,
      toInt_nearestWord_of_isWord (isWord_of_lt_wordBound hbound)]
  · exact ⟨n, double, hview, hlib.keeps.double hdouble, Number.beq_self h⟩

/-! ### Items and fields -/

theorem ofFields_eq_map (fields : List (String × Json)) :
    lib.ofFields fields = fields.map fun field => (field.1, lib.ofJson field.2) := by
  induction fields with
  | nil => rfl
  | cons field rest ih => exact congrArg (List.cons _) ih

theorem wellFormed_ofFields {fields : List (String × Json)} (h : Entries.WellFormed fields) :
    Entries.WellFormed (lib.ofFields fields) := by
  have hkeys : Entries.keys (lib.ofFields fields) = Entries.keys fields := by
    rw [ofFields_eq_map, Entries.keys, Entries.keys, List.map_map]
    rfl
  rwa [Entries.WellFormed, hkeys]

/-- The fields of the map of an object are what is exchanged for its fields, in another order. -/
theorem mem_collect (hlib : lib.Lawful) {fields : List (String × Json)} {key : String}
    {v : lib.Value} (h : Entries.WellFormed fields) :
    (key, v) ∈ lib.entries (lib.collect (lib.ofFields fields)) ↔
      ∃ value, (key, value) ∈ fields ∧ lib.ofJson value = v := by
  rw [(hlib.sorts.perm (wellFormed_ofFields h)).mem_iff, ofFields_eq_map, List.mem_map]
  constructor
  · rintro ⟨⟨k, value⟩, hmem, heq⟩
    cases heq
    exact ⟨value, hmem, rfl⟩
  · rintro ⟨value, hmem, rfl⟩
    exact ⟨(key, value), hmem, rfl⟩

theorem length_collect (hlib : lib.Lawful) {fields : List (String × Json)}
    (h : Entries.WellFormed fields) :
    (lib.entries (lib.collect (lib.ofFields fields))).length = fields.length := by
  rw [(hlib.sorts.perm (wellFormed_ofFields h)).length_eq, ofFields_eq_map, List.length_map]

section

variable {fields shuffled others : List (String × lib.Value)}

theorem keys_eq_of_sameFields (h : List.Forall₂ lib.SameField fields others) :
    Entries.keys others = Entries.keys fields := by
  induction h with
  | nil => rfl
  | cons h _ ih => exact congrArg₂ List.cons h.1.symm ih

theorem exists_of_sameFields (h : List.Forall₂ lib.SameField fields others) {key : String}
    {v : lib.Value} (hmem : (key, v) ∈ fields) :
    ∃ w, (key, w) ∈ others ∧ lib.equal v w = true := by
  induction h with
  | nil => cases hmem
  | @cons field other rest others hsame _ ih =>
    rcases List.mem_cons.1 hmem with rfl | hrest
    · obtain ⟨key', w⟩ := other
      obtain ⟨rfl, hequal⟩ := hsame
      exact ⟨w, List.mem_cons_self .., hequal⟩
    · obtain ⟨w, hw, hequal⟩ := ih hrest
      exact ⟨w, List.mem_cons_of_mem _ hw, hequal⟩

/-- **Maps forget the order of distinct keys.** Fields that are the same as others in another order
have maps that are the same. -/
theorem sameLayer_collect (hlib : lib.Lawful) (hkeys : Entries.WellFormed fields)
    (h : List.Forall₂ lib.SameField fields shuffled) (hperm : shuffled.Perm others) :
    lib.SameLayer (.object (lib.collect fields)) (.object (lib.collect others)) := by
  have hothers : Entries.WellFormed others := by
    have hshuffled : (Entries.keys shuffled).Nodup := keys_eq_of_sameFields h ▸ hkeys
    exact (hperm.map Prod.fst).nodup_iff.1 hshuffled
  -- The others in the order of the first map are sorted, so they are in the order of the second.
  obtain ⟨reordered, hsame, hreordered⟩ := List.perm_comp_forall₂ (hlib.sorts.perm hkeys) h
  have hsorted : reordered.Pairwise fun field other => field.1 < other.1 := by
    have hentries : (Entries.keys (lib.entries (lib.collect fields))).Pairwise (· < ·) :=
      List.pairwise_map.2 (hlib.sorts.sorted hkeys)
    rw [← keys_eq_of_sameFields hsame] at hentries
    exact List.pairwise_map.1 hentries
  have hentries : reordered = lib.entries (lib.collect others) :=
    (hreordered.trans (hperm.trans (hlib.sorts.perm hothers).symm)).eq_of_pairwise
      (fun _ _ _ _ hlt hgt => (String.lt_asymm hlt hgt).elim) hsorted (hlib.sorts.sorted hothers)
  rw [hentries] at hsame
  exact .object hsame

end

end Interchange

namespace Json

/-! ### Values of finite numbers -/

/-- No object of the value holds a key twice, and all its numbers are finite. -/
structure Finite (v : Json) : Prop where
  keys : v.WellFormed
  numbers : v.EveryNumber fun n => n.isFinite

theorem Finite.items {items : List Json} (h : (array items).Finite) :
    ∀ item ∈ items, item.Finite := fun item hitem =>
  ⟨wellFormedItems_iff.1 h.keys item hitem, everyNumberOfItems_iff.1 h.numbers item hitem⟩

theorem Finite.fields {fields : List (String × Json)} (h : (object fields).Finite) :
    ∀ field ∈ fields, field.2.Finite := fun field hfield =>
  ⟨wellFormedFields_iff.1 h.keys.2 field hfield, everyNumberOfFields_iff.1 h.numbers field hfield⟩

theorem equalFields_iff {fields others : List (String × Json)} :
    equalFields fields others = true ↔
      ∀ field ∈ fields, ∃ other, Entries.get? field.1 others = some other ∧
        equal field.2 other = true := by
  induction fields with
  | nil => exact iff_of_true rfl (List.forall_mem_nil _)
  | cons field rest ih =>
    obtain ⟨key, value⟩ := field
    rw [equalFields, Bool.and_eq_true, ih, List.forall_mem_cons]
    refine and_congr_left fun _ => ?_
    cases hother : Entries.get? key others with
    | none => simp
    | some other => simp

/-! ### From equal to alike -/

mutual
/-- Equal values differ in the order of keys and in the sign of zero at most. -/
theorem alike_of_equal : (a b : Json) → a.Finite → b.Finite → equal a b = true →
    Alike Number.SameValue a b
  | .null, b, _, _, h => by
    cases b with
    | null => exact .null
    | _ => cases h
  | .bool a, b, _, _, h => by
    cases b with
    | bool b =>
      obtain rfl : a = b := eq_of_beq h
      exact .bool a
    | _ => cases h
  | .number m, b, ha, hb, h => by
    cases b with
    | number n => exact .number (Number.sameValue_of_beq ha.numbers hb.numbers h)
    | _ => cases h
  | .text a, b, _, _, h => by
    cases b with
    | text b =>
      obtain rfl : a = b := eq_of_beq h
      exact .text a
    | _ => cases h
  | .array items, b, ha, hb, h => by
    cases b with
    | array others => exact .array (alikeItems_of_equal items others ha.items hb.items h)
    | _ => cases h
  | .object fields, b, ha, hb, h => by
    cases b with
    | object others =>
      obtain ⟨hlength, hfields⟩ := Bool.and_eq_true_iff.1 h
      obtain ⟨shuffled, halike, hsubset⟩ :=
        exists_alikeFields fields ha.fields hb.fields (equalFields_iff.1 hfields)
      have hkeys : Entries.keys shuffled = Entries.keys fields := halike.keys_eq
      have hnodup : shuffled.Nodup := by
        have hdistinct : Entries.WellFormed fields := ha.keys.1
        rw [Entries.WellFormed, ← hkeys] at hdistinct
        exact .of_map Prod.fst hdistinct
      -- As many different fields, all of them found in the other object, are all that it has.
      have hcount : others.length ≤ shuffled.length := by
        have hsame := congrArg List.length hkeys
        rw [Entries.keys, Entries.keys, List.length_map, List.length_map] at hsame
        exact Nat.le_of_eq ((eq_of_beq hlength).symm.trans hsame.symm)
      exact .object halike ((List.subperm_of_subset hnodup hsubset).perm_of_length_le hcount)
    | _ => cases h

theorem alikeItems_of_equal : (items others : List Json) → (∀ item ∈ items, item.Finite) →
    (∀ other ∈ others, other.Finite) → equalItems items others = true →
    AlikeItems Number.SameValue items others
  | [], others, _, _, h => by
    cases others with
    | nil => exact .nil
    | cons other others => cases h
  | item :: rest, others, hitems, hothers, h => by
    cases others with
    | nil => cases h
    | cons other others =>
      obtain ⟨hitem, hrest⟩ := List.forall_mem_cons.1 hitems
      obtain ⟨hother, hothers⟩ := List.forall_mem_cons.1 hothers
      obtain ⟨hequal, hmore⟩ := Bool.and_eq_true_iff.1 h
      exact .cons (alike_of_equal item other hitem hother hequal)
        (alikeItems_of_equal rest others hrest hothers hmore)

/-- The fields of the second object in the order of the first. -/
theorem exists_alikeFields {others : List (String × Json)} :
    (fields : List (String × Json)) → (∀ field ∈ fields, field.2.Finite) →
    (∀ other ∈ others, other.2.Finite) →
    (∀ field ∈ fields, ∃ other, Entries.get? field.1 others = some other ∧
      equal field.2 other = true) →
    ∃ shuffled, AlikeFields Number.SameValue fields shuffled ∧ shuffled ⊆ others
  | [], _, _, _ => ⟨[], .nil, List.nil_subset _⟩
  | (key, value) :: rest, hfields, hothers, h => by
    obtain ⟨hfield, hrest⟩ := List.forall_mem_cons.1 hfields
    obtain ⟨⟨other, hget, hequal⟩, hmore⟩ := List.forall_mem_cons.1 h
    have hmem : (key, other) ∈ others := Entries.mem_of_get? hget
    obtain ⟨shuffled, halike, hsubset⟩ := exists_alikeFields rest hrest hothers hmore
    exact ⟨(key, other) :: shuffled,
      .cons (alike_of_equal value other hfield (hothers _ hmem) hequal) halike,
      List.cons_subset.2 ⟨hmem, hsubset⟩⟩
end

/-! ### From alike to exchanged as equal -/

section

variable {lib : Interchange}

mutual
/-- Values that are alike are exchanged as equal ones. -/
theorem equal_of_alike (hlib : lib.Lawful) : {a b : Json} → Alike Number.SameValue a b →
    a.Finite → lib.equal (lib.ofJson a) (lib.ofJson b) = true
  | _, _, .null, _ => (Interchange.equal_wrap_iff hlib).2 .null
  | _, _, .bool b, _ => (Interchange.equal_wrap_iff hlib).2 (.bool b)
  | _, _, .number h, hm => Interchange.equal_ofNumber_of_sameValue hlib h hm.numbers
  | _, _, .text s, _ => (Interchange.equal_wrap_iff hlib).2 (.text s)
  | _, _, .array h, ha =>
    (Interchange.equal_wrap_iff hlib).2 (.array (equalItems_of_alike hlib h ha.items))
  | _, _, .object h hperm, ha => by
    refine (Interchange.equal_wrap_iff hlib).2
      (Interchange.sameLayer_collect hlib (Interchange.wellFormed_ofFields ha.keys.1)
        (sameFields_of_alike hlib h ha.fields) ?_)
    rw [Interchange.ofFields_eq_map, Interchange.ofFields_eq_map]
    exact hperm.map _

theorem equalItems_of_alike (hlib : lib.Lawful) : {items others : List Json} →
    AlikeItems Number.SameValue items others → (∀ item ∈ items, item.Finite) →
    List.Forall₂ (fun v w => lib.equal v w = true) (lib.ofItems items) (lib.ofItems others)
  | _, _, .nil, _ => .nil
  | _, _, .cons h hrest, hitems =>
    .cons (equal_of_alike hlib h (List.forall_mem_cons.1 hitems).1)
      (equalItems_of_alike hlib hrest (List.forall_mem_cons.1 hitems).2)

theorem sameFields_of_alike (hlib : lib.Lawful) : {fields shuffled : List (String × Json)} →
    AlikeFields Number.SameValue fields shuffled → (∀ field ∈ fields, field.2.Finite) →
    List.Forall₂ lib.SameField (lib.ofFields fields) (lib.ofFields shuffled)
  | _, _, .nil, _ => .nil
  | _, _, .cons h hrest, hfields =>
    .cons ⟨rfl, equal_of_alike hlib h (List.forall_mem_cons.1 hfields).1⟩
      (sameFields_of_alike hlib hrest (List.forall_mem_cons.1 hfields).2)
end

/-! ### From exchanged as equal to equal -/

theorem kind_view_ofJson (hlib : lib.Lawful) {a : Json} (h : a.Finite) :
    (lib.view (lib.ofJson a)).kind = a.kind := by
  cases a with
  | number n =>
    obtain ⟨m, double, hview, -⟩ := Interchange.exists_toDouble?_beq hlib h.numbers
    exact congrArg Layer.kind hview
  | _ => exact congrArg Layer.kind (lib.view_wrap _)

theorem kind_eq_of_exchanged (hlib : lib.Lawful) {a b : Json} (ha : a.Finite) (hb : b.Finite)
    (h : lib.equal (lib.ofJson a) (lib.ofJson b) = true) : a.kind = b.kind := by
  rw [← kind_view_ofJson hlib ha, ← kind_view_ofJson hlib hb]
  exact ((hlib.layers _ _).1 h).kind_eq

mutual
/-- Values that are exchanged as equal ones are equal. -/
theorem equal_of_exchanged (hlib : lib.Lawful) : (a b : Json) → a.Finite → b.Finite →
    lib.equal (lib.ofJson a) (lib.ofJson b) = true → equal a b = true
  | .null, b, ha, hb, h => by
    have hkind := kind_eq_of_exchanged hlib ha hb h
    cases b with
    | null => rfl
    | _ => cases hkind
  | .bool a, b, ha, hb, h => by
    have hkind := kind_eq_of_exchanged hlib ha hb h
    cases b with
    | bool b =>
      cases (Interchange.equal_wrap_iff hlib).1 h
      exact beq_self_eq_true a
    | _ => cases hkind
  | .number m, b, ha, hb, h => by
    have hkind := kind_eq_of_exchanged hlib ha hb h
    cases b with
    | number n => exact Interchange.beq_of_ofNumber_equal hlib ha.numbers hb.numbers h
    | _ => cases hkind
  | .text a, b, ha, hb, h => by
    have hkind := kind_eq_of_exchanged hlib ha hb h
    cases b with
    | text b =>
      cases (Interchange.equal_wrap_iff hlib).1 h
      exact beq_self_eq_true a
    | _ => cases hkind
  | .array items, b, ha, hb, h => by
    have hkind := kind_eq_of_exchanged hlib ha hb h
    cases b with
    | array others =>
      cases (Interchange.equal_wrap_iff hlib).1 h with
      | array h => exact equalItems_of_exchanged hlib items others ha.items hb.items h
    | _ => cases hkind
  | .object fields, b, ha, hb, h => by
    have hkind := kind_eq_of_exchanged hlib ha hb h
    cases b with
    | object others =>
      cases (Interchange.equal_wrap_iff hlib).1 h with
      | object h =>
        have hlength := h.length_eq
        rw [Interchange.length_collect hlib ha.keys.1,
          Interchange.length_collect hlib hb.keys.1] at hlength
        -- A field is looked up by its key in the sorted map of the other object.
        have hfound : ∀ field ∈ fields, ∃ other, (field.1, other) ∈ others ∧
            lib.equal (lib.ofJson field.2) (lib.ofJson other) = true := by
          rintro ⟨key, value⟩ hmem
          have hentry := (Interchange.mem_collect hlib ha.keys.1).2 ⟨value, hmem, rfl⟩
          obtain ⟨w, hw, hequal⟩ := Interchange.exists_of_sameFields h hentry
          obtain ⟨other, hother, rfl⟩ := (Interchange.mem_collect hlib hb.keys.1).1 hw
          exact ⟨other, hother, hequal⟩
        have hequal := equalFields_of_exchanged hlib fields ha.fields hb.keys.1 hb.fields hfound
        exact Bool.and_eq_true_iff.2 ⟨beq_iff_eq.2 hlength, equalFields_iff.2 hequal⟩
    | _ => cases hkind

theorem equalItems_of_exchanged (hlib : lib.Lawful) : (items others : List Json) →
    (∀ item ∈ items, item.Finite) → (∀ other ∈ others, other.Finite) →
    List.Forall₂ (fun v w => lib.equal v w = true) (lib.ofItems items) (lib.ofItems others) →
    equalItems items others = true
  | [], others, _, _, h => by
    cases others with
    | nil => rfl
    | cons other others => cases h
  | item :: rest, others, hitems, hothers, h => by
    cases others with
    | nil => cases h
    | cons other others =>
      obtain ⟨hitem, hrest⟩ := List.forall_mem_cons.1 hitems
      obtain ⟨hother, hothers⟩ := List.forall_mem_cons.1 hothers
      obtain ⟨hequal, hmore⟩ := List.forall₂_cons.1 h
      exact Bool.and_eq_true_iff.2 ⟨equal_of_exchanged hlib item other hitem hother hequal,
        equalItems_of_exchanged hlib rest others hrest hothers hmore⟩

theorem equalFields_of_exchanged (hlib : lib.Lawful) {others : List (String × Json)} :
    (fields : List (String × Json)) → (∀ field ∈ fields, field.2.Finite) →
    Entries.WellFormed others → (∀ other ∈ others, other.2.Finite) →
    (∀ field ∈ fields, ∃ other, (field.1, other) ∈ others ∧
      lib.equal (lib.ofJson field.2) (lib.ofJson other) = true) →
    ∀ field ∈ fields, ∃ other, Entries.get? field.1 others = some other ∧
      equal field.2 other = true
  | [], _, _, _, _ => List.forall_mem_nil _
  | (key, value) :: rest, hfields, hkeys, hothers, h => by
    obtain ⟨hfield, hrest⟩ := List.forall_mem_cons.1 hfields
    obtain ⟨⟨other, hmem, hequal⟩, hmore⟩ := List.forall_mem_cons.1 h
    exact List.forall_mem_cons.2
      ⟨⟨other, Entries.get?_of_mem hkeys hmem,
        equal_of_exchanged hlib value other hfield (hothers _ hmem) hequal⟩,
        equalFields_of_exchanged hlib rest hrest hkeys hothers hmore⟩
end

/-! ### The way there and back -/

/-- The document of a layer. -/
def layerJson (lib : Interchange) : Layer lib.Value lib.Num lib.Map → Json
  | .null => .null
  | .bool b => .bool b
  | .number n => .number ((lib.toDouble? n).getD (Number.ofInt 0))
  | .text s => .text s
  | .array items => .array (items.map lib.toJson)
  | .object fields =>
    .object (Entries.ofList ((lib.entries fields).map fun field => (field.1, lib.toJson field.2)))

theorem toJson_eq_layerJson (v : lib.Value) : lib.toJson v = layerJson lib (lib.view v) := by
  rw [Interchange.toJson]
  split <;> rename_i heq <;> rw [heq]
  · rfl
  · rfl
  · rfl
  · rfl
  · exact congrArg array List.attach_map_val
  · exact congrArg (fun entries => object (Entries.ofList entries))
      (List.attach_map_val (f := fun field : String × lib.Value => (field.1, lib.toJson field.2)))

theorem toJson_wrap (layer : Layer lib.Value lib.Num lib.Map) :
    lib.toJson (lib.wrap layer) = layerJson lib layer := by
  rw [toJson_eq_layerJson, lib.view_wrap]

mutual
/-- The document of what is exchanged for a document equals it. -/
theorem toJson_ofJson_equal (hlib : lib.Lawful) :
    (a : Json) → a.Finite → equal (lib.toJson (lib.ofJson a)) a = true
  | .null, _ => by
    rw [Interchange.ofJson, toJson_wrap]
    rfl
  | .bool b, _ => by
    rw [Interchange.ofJson, toJson_wrap]
    exact beq_self_eq_true b
  | .number n, h => by
    obtain ⟨m, double, hview, hdouble, hequal⟩ := Interchange.exists_toDouble?_beq hlib h.numbers
    rw [Interchange.ofJson, toJson_eq_layerJson, hview, layerJson, hdouble]
    exact hequal
  | .text s, _ => by
    rw [Interchange.ofJson, toJson_wrap]
    exact beq_self_eq_true s
  | .array items, h => by
    rw [Interchange.ofJson, toJson_wrap]
    exact toItems_ofItems_equal hlib items h.items
  | .object fields, h => by
    have hwellFormed : Entries.WellFormed
        ((lib.entries (lib.collect (lib.ofFields fields))).map fun field =>
          (field.1, lib.toJson field.2)) := by
      rw [Entries.WellFormed, Entries.keys, List.map_map]
      exact ((hlib.sorts.perm (Interchange.wellFormed_ofFields h.keys.1)).map
        Prod.fst).nodup_iff.2 (Interchange.wellFormed_ofFields h.keys.1)
    rw [Interchange.ofJson, toJson_wrap, layerJson, Entries.ofList_of_wellFormed hwellFormed]
    refine Bool.and_eq_true_iff.2 ⟨beq_iff_eq.2 ?_, equalFields_iff.2 fun field hfield => ?_⟩
    · rw [List.length_map, Interchange.length_collect hlib h.keys.1]
    · obtain ⟨⟨key, v⟩, hv, rfl⟩ := List.mem_map.1 hfield
      obtain ⟨value, hvalue, rfl⟩ := (Interchange.mem_collect hlib h.keys.1).1 hv
      exact ⟨value, Entries.get?_of_mem h.keys.1 hvalue,
        toFields_ofFields_equal hlib fields h.fields _ hvalue⟩

theorem toItems_ofItems_equal (hlib : lib.Lawful) : (items : List Json) →
    (∀ item ∈ items, item.Finite) →
    equalItems ((lib.ofItems items).map lib.toJson) items = true
  | [], _ => rfl
  | item :: rest, h => by
    obtain ⟨hitem, hrest⟩ := List.forall_mem_cons.1 h
    exact Bool.and_eq_true_iff.2
      ⟨toJson_ofJson_equal hlib item hitem, toItems_ofItems_equal hlib rest hrest⟩

theorem toFields_ofFields_equal (hlib : lib.Lawful) : (fields : List (String × Json)) →
    (∀ field ∈ fields, field.2.Finite) →
    ∀ field ∈ fields, equal (lib.toJson (lib.ofJson field.2)) field.2 = true
  | [], _ => List.forall_mem_nil _
  | (_, value) :: rest, h => by
    obtain ⟨hvalue, hrest⟩ := List.forall_mem_cons.1 h
    exact List.forall_mem_cons.2
      ⟨toJson_ofJson_equal hlib value hvalue, toFields_ofFields_equal hlib rest hrest⟩
end

/-! ### One relation -/

/-- Finite documents are equal if they differ in the order of keys and in the sign of zeros at
most. -/
theorem equal_iff_alike {a b : Json} (ha : a.Finite) (hb : b.Finite) :
    (a == b) = true ↔ Alike Number.SameValue a b := by
  constructor
  · exact alike_of_equal a b ha hb
  · intro h
    -- No library is part of the statement, so any will do to close the circle.
    exact equal_of_exchanged Interchange.lawful_reference a b ha hb
      (equal_of_alike Interchange.lawful_reference h ha)

/-- Equality of finite documents is an equivalence. -/
theorem equivalence_equal :
    Equivalence fun a b : {v : Json // v.Finite} => (a.val == b.val) = true where
  refl a := (equal_iff_alike a.2 a.2).2 (.refl .refl a.val)
  symm {a b} h := (equal_iff_alike b.2 a.2).2 (((equal_iff_alike a.2 b.2).1 h).symm .symm)
  trans {a b c} hab hbc := (equal_iff_alike a.2 c.2).2
    (((equal_iff_alike a.2 b.2).1 hab).trans .trans ((equal_iff_alike b.2 c.2).1 hbc))

end

/-- **What documents are exchanged as decides equality**, for every library of values that has the
properties asked of it. Documents of finite numbers are equal exactly if they are exchanged as equal
values, and exactly if they differ in the order of keys and in the sign of zeros at most. Each
equals what comes back for it, and equality is an equivalence. -/
theorem equal_iff_exchanged {lib : Interchange} (hlayers : lib.ComparesLayers)
    (hcompares : lib.ComparesNumbers) (hkeeps : lib.KeepsNumbers) (hsorts : lib.SortsFields) :
    (∀ a b : Json, a.Finite → b.Finite →
      ((a == b) = true ↔ lib.equal (lib.ofJson a) (lib.ofJson b) = true) ∧
        ((a == b) = true ↔ Alike Number.SameValue a b)) ∧
    (∀ a : Json, a.Finite → (lib.toJson (lib.ofJson a) == a) = true) ∧
    Equivalence fun a b : {v : Json // v.Finite} => (a.val == b.val) = true := by
  have hlib : lib.Lawful := ⟨hlayers, hcompares, hkeeps, hsorts⟩
  refine ⟨fun a b ha hb => ⟨⟨fun h => ?_, equal_of_exchanged hlib a b ha hb⟩,
    equal_iff_alike ha hb⟩, toJson_ofJson_equal hlib, equivalence_equal⟩
  exact equal_of_alike hlib ((equal_iff_alike ha hb).1 h) ha

/-- Two objects with their keys in either order, one with a zero and one with the negative zero in
an array, and a number with a fraction. -/
theorem equal_iff_exchanged_of_zeros : ∃ a b : Json,
    a = .object [("b", .array [.number (.ofInt 0), .text "b"]),
      ("a", .number (.ofRatio false (3 * unitsPerOne) 2))] ∧
    b = .object [("a", .number (.ofRatio false (3 * unitsPerOne) 2)),
      ("b", .array [.number (.ofRatio true 0 1), .text "b"])] ∧
    Interchange.reference.ComparesLayers ∧ Interchange.reference.ComparesNumbers ∧
    Interchange.reference.KeepsNumbers ∧ Interchange.reference.SortsFields ∧
    a.Finite ∧ b.Finite ∧ (a == b) = true ∧ (b == a) = true ∧
      Interchange.reference.equal (Interchange.reference.ofJson a)
        (Interchange.reference.ofJson b) = true ∧
      (Interchange.reference.toJson (Interchange.reference.ofJson a) == a) = true := by
  have hhalves : (Number.ofRatio false (3 * unitsPerOne) 2).isFinite := by decide +kernel
  have hzero : (Number.ofInt 0).isZero ∧ (Number.ofInt 0).isFinite := by decide +kernel
  have hnegative : (Number.ofRatio true 0 1).isZero ∧ (Number.ofRatio true 0 1).isFinite := by
    decide +kernel
  generalize Number.ofRatio false (3 * unitsPerOne) 2 = halves at hhalves ⊢
  generalize Number.ofInt 0 = zero at hzero ⊢
  generalize Number.ofRatio true 0 1 = negative at hnegative ⊢
  refine ⟨_, _, rfl, rfl, Interchange.comparesLayers_reference,
    Interchange.comparesNumbers_reference, Interchange.keepsNumbers_reference,
    Interchange.sortsFields_reference, ?_⟩
  have ha : Finite (.object [("b", .array [.number zero, .text "b"]), ("a", .number halves)]) :=
    ⟨by simp [WellFormed, WellFormedItems, WellFormedFields, Entries.WellFormed, Entries.keys],
      ⟨hzero.2, trivial, trivial⟩, hhalves, trivial⟩
  have hb : Finite (.object [("a", .number halves), ("b", .array [.number negative, .text "b"])]) :=
    ⟨by simp [WellFormed, WellFormedItems, WellFormedFields, Entries.WellFormed, Entries.keys],
      hhalves, ⟨hnegative.2, trivial, trivial⟩, trivial⟩
  have halike : Alike Number.SameValue
      (.object [("b", .array [.number zero, .text "b"]), ("a", .number halves)])
      (.object [("a", .number halves), ("b", .array [.number negative, .text "b"])]) :=
    .object (.cons (.array (.cons (.number (.inr ⟨hzero.1, hnegative.1⟩)) (.refl .refl _)))
      (.refl .refl _)) (.swap ..)
  obtain ⟨hiff, hback, hequivalence⟩ := equal_iff_exchanged Interchange.comparesLayers_reference
    Interchange.comparesNumbers_reference Interchange.keepsNumbers_reference
    Interchange.sortsFields_reference
  have hequal := (hiff _ _ ha hb).2.2 halike
  exact ⟨ha, hb, hequal, hequivalence.symm (x := ⟨_, ha⟩) (y := ⟨_, hb⟩) hequal,
    (hiff _ _ ha hb).1.1 hequal, hback _ ha⟩

end Json

end Reshape
