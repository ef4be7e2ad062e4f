import Mathlib.Data.List.Forall2
import Reshape.Json.Reference.Value
import Reshape.Proofs.Entries

/-!
# What is asked of a library of values

Results about exchanged values hold for every library that has the properties below, which say how
it compares values and numbers, that its numbers keep what they are made of, and that its maps are
sorted. The reference library has them.

* `Interchange.SameField` and `Interchange.SameLayer`, values compared one layer deep;
* `Interchange.ComparesLayers`, `ComparesNumbers`, `KeepsNumbers` and `SortsFields`, together
  `Interchange.Lawful`;
* `lawful_reference`.
-/

namespace Reshape

namespace Interchange

variable (lib : Interchange)

/-- Fields with one key and equal values. -/
def SameField (field other : String × lib.Value) : Prop :=
  field.1 = other.1 ∧ lib.equal field.2 other.2 = true

/-- Layers of one kind with equal scalars, with items that are equal one by one, or with fields that
are the same one by one in the order of their maps. -/
inductive SameLayer :
    Layer lib.Value lib.Num lib.Map → Layer lib.Value lib.Num lib.Map → Prop
  | null : SameLayer .null .null
  | bool (b : Bool) : SameLayer (.bool b) (.bool b)
  | number {m n : lib.Num} (h : lib.numberEqual m n = true) : SameLayer (.number m) (.number n)
  | text (s : String) : SameLayer (.text s) (.text s)
  | array {items others : List lib.Value}
      (h : List.Forall₂ (fun v w => lib.equal v w = true) items others) :
      SameLayer (.array items) (.array others)
  | object {fields others : lib.Map}
      (h : List.Forall₂ lib.SameField (lib.entries fields) (lib.entries others)) :
      SameLayer (.object fields) (.object others)

/-- Values are compared layer by layer. -/
def ComparesLayers : Prop :=
  ∀ v w, lib.equal v w = true ↔ lib.SameLayer (lib.view v) (lib.view w)

/-- Numbers are compared by kind and value: words as words, doubles as doubles, and no word equals a
double. -/
structure ComparesNumbers : Prop where
  words : ∀ word other,
    lib.numberEqual (lib.ofWord word) (lib.ofWord other) = true ↔ word = other
  doubles : ∀ {m n double other}, lib.ofDouble? m = some double → lib.ofDouble? n = some other →
    (lib.numberEqual double other = true ↔ (m == n) = true)
  wordDouble : ∀ {n double} word, lib.ofDouble? n = some double →
    lib.numberEqual (lib.ofWord word) double = false
  doubleWord : ∀ {n double} word, lib.ofDouble? n = some double →
    lib.numberEqual double (lib.ofWord word) = false

/-- Every finite double has a number, and words and doubles are read as the doubles nearest to
them. -/
structure KeepsNumbers : Prop where
  exists_double : ∀ {n : Number}, n.isFinite → ∃ double, lib.ofDouble? n = some double
  word : ∀ word, lib.toDouble? (lib.ofWord word) = some (Number.ofWord word)
  double : ∀ {n double}, lib.ofDouble? n = some double → lib.toDouble? double = some n

/-- The map of fields without repeated keys has just these fields, in the order of their keys. -/
structure SortsFields : Prop where
  perm : ∀ {fields}, Entries.WellFormed fields → (lib.entries (lib.collect fields)).Perm fields
  sorted : ∀ {fields}, Entries.WellFormed fields →
    (lib.entries (lib.collect fields)).Pairwise fun field other => field.1 < other.1

/-- What is asked of a library of values. -/
structure Lawful : Prop where
  layers : lib.ComparesLayers
  compares : lib.ComparesNumbers
  keeps : lib.KeepsNumbers
  sorts : lib.SortsFields

end Interchange

/-! ### The reference library -/

namespace PlainValue

theorem equalItems_iff {items others : List PlainValue} : equalItems items others = true ↔
    List.Forall₂ (fun v w => equal v w = true) items others := by
  induction items generalizing others with
  | nil =>
    cases others with
    | nil => exact iff_of_true rfl .nil
    | cons other others => simp [equalItems]
  | cons item rest ih =>
    cases others with
    | nil => simp [equalItems]
    | cons other others => rw [equalItems, Bool.and_eq_true, ih, List.forall₂_cons]

theorem equalFields_iff {fields others : List (String × PlainValue)} :
    equalFields fields others = true ↔
      List.Forall₂ (fun field other => field.1 = other.1 ∧ equal field.2 other.2 = true)
        fields others := by
  induction fields generalizing others with
  | nil =>
    cases others with
    | nil => exact iff_of_true rfl .nil
    | cons other others => simp [equalFields]
  | cons field rest ih =>
    obtain ⟨key, value⟩ := field
    cases others with
    | nil => simp [equalFields]
    | cons other others =>
      rw [equalFields, Bool.and_eq_true, Bool.and_eq_true, ih, List.forall₂_cons, beq_iff_eq,
        and_assoc]

section

variable {fields : List (String × PlainValue)}

theorem sortFields_perm (h : Entries.WellFormed fields) : (sortFields fields).Perm fields := by
  rw [sortFields, Entries.ofList_of_wellFormed h]
  exact List.mergeSort_perm fields _

/-- Sorted fields are in the order of their keys, and no two keys are the same. -/
theorem sortFields_sorted (h : Entries.WellFormed fields) :
    (sortFields fields).Pairwise fun field other => field.1 < other.1 := by
  have hdistinct : (sortFields fields).Pairwise fun field other => field.1 ≠ other.1 :=
    List.pairwise_map.1 (((sortFields_perm h).map Prod.fst).nodup_iff.2 h)
  have hsorted : (sortFields fields).Pairwise fun field other =>
      decide (field.1 ≤ other.1) = true := by
    refine List.pairwise_mergeSort (fun a b c hab hbc => ?_) (fun a b => ?_) _
    · exact decide_eq_true (String.le_trans (of_decide_eq_true hab) (of_decide_eq_true hbc))
    · simpa using String.le_total a.1 b.1
  refine (hsorted.and hdistinct).imp fun {field other} hboth => ?_
  obtain ⟨hle, hne⟩ := hboth
  by_contra hlt
  exact hne (String.le_antisymm (of_decide_eq_true hle) (String.not_lt.1 hlt))

end

end PlainValue

namespace Interchange

theorem sameLayer_of_equal {v w : PlainValue} (h : v.equal w = true) :
    reference.SameLayer v.view w.view := by
  cases v with
  | null =>
    cases w with
    | null => exact .null
    | _ => cases h
  | bool a =>
    cases w with
    | bool b =>
      obtain rfl : a = b := eq_of_beq h
      exact .bool a
    | _ => cases h
  | number m =>
    cases w with
    | number n => exact .number h
    | _ => cases h
  | text s =>
    cases w with
    | text t =>
      obtain rfl : s = t := eq_of_beq h
      exact .text s
    | _ => cases h
  | array items =>
    cases w with
    | array others => exact .array (PlainValue.equalItems_iff.1 h)
    | _ => cases h
  | object fields =>
    cases w with
    | object others => exact .object (PlainValue.equalFields_iff.1 h)
    | _ => cases h

theorem equal_of_sameLayer {layer other : Layer reference.Value reference.Num reference.Map}
    (h : reference.SameLayer layer other) :
    (PlainValue.wrap layer).equal (PlainValue.wrap other) = true := by
  cases h with
  | null => rfl
  | bool b => exact beq_self_eq_true b
  | number h => exact h
  | text s => exact beq_self_eq_true s
  | array h => exact PlainValue.equalItems_iff.2 h
  | object h => exact PlainValue.equalFields_iff.2 h

theorem comparesLayers_reference : reference.ComparesLayers := by
  intro v w
  have hwrap (v : PlainValue) : PlainValue.wrap v.view = v := by cases v <;> rfl
  refine ⟨sameLayer_of_equal, fun h => ?_⟩
  have hequal : (PlainValue.wrap (PlainValue.view v)).equal (PlainValue.wrap (PlainValue.view w)) =
      true := equal_of_sameLayer h
  rwa [hwrap v, hwrap w] at hequal

theorem exists_real_of_ofDouble? {n : Number} {double : PlainNumber}
    (h : PlainNumber.ofDouble? n = some double) : double = .real n := by
  unfold PlainNumber.ofDouble? at h
  split at h
  · exact (Option.some.inj h).symm
  · cases h

theorem comparesNumbers_reference : reference.ComparesNumbers where
  words word other := by
    change (word.toInt == other.toInt) = true ↔ word = other
    rw [beq_iff_eq, Int64.toInt_inj]
  doubles h h' := by
    rw [exists_real_of_ofDouble? h, exists_real_of_ofDouble? h']
    rfl
  wordDouble _ h := by
    rw [exists_real_of_ofDouble? h]
    rfl
  doubleWord _ h := by
    rw [exists_real_of_ofDouble? h]
    rfl

theorem keepsNumbers_reference : reference.KeepsNumbers where
  exists_double h := ⟨_, if_pos h⟩
  word _ := rfl
  double h := by
    rw [exists_real_of_ofDouble? h]
    rfl

theorem sortsFields_reference : reference.SortsFields where
  perm := PlainValue.sortFields_perm
  sorted := PlainValue.sortFields_sorted

theorem lawful_reference : reference.Lawful :=
  ⟨comparesLayers_reference, comparesNumbers_reference, keepsNumbers_reference,
    sortsFields_reference⟩

end Interchange

end Reshape
