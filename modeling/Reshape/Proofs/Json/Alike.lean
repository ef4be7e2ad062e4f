import Mathlib.Data.List.Perm.Basic
import Reshape.Proofs.Json.Trail

/-!
# Values up to the order of keys

Two values that differ in the order in which their objects hold their keys, at any depth. How much
their numbers may differ is left open.

* `Json.Alike`, with `Alike.refl`, `Alike.symm` and `Alike.trans`;
* `Entries.perm_insert_insert` and `Alike.of_perm`, two new keys in either order;
* `Alike.setChild`, children that are alike in one container.
-/

namespace Reshape

theorem Entries.perm_insert_insert {κ : Type} {α : Type u} [DecidableEq κ] {key other : κ}
    (h : key ≠ other) (value value' : α) (table : Entries κ α) :
    ((table.insert key value).insert other value').Perm
      ((table.insert other value').insert key value) := by
  induction table with
  | nil =>
    simp only [insert, if_neg h, if_neg h.symm]
    exact List.Perm.swap _ _ _
  | cons entry rest ih =>
    obtain ⟨k, v⟩ := entry
    by_cases hkey : k = key
    · subst hkey
      simp [insert, h]
    · by_cases hother : k = other
      · subst hother
        simp [insert, hkey]
      · simpa [insert, hkey, hother] using ih

namespace Json

mutual
/-- The same value but for the order of keys, and for numbers that are the same as `same` tells. -/
inductive Alike (same : Number → Number → Prop) : Json → Json → Prop
  | null : Alike same .null .null
  | bool (b : Bool) : Alike same (.bool b) (.bool b)
  | number {m n : Number} (h : same m n) : Alike same (.number m) (.number n)
  | text (s : String) : Alike same (.text s) (.text s)
  | array {items others : List Json} (h : AlikeItems same items others) :
      Alike same (.array items) (.array others)
  | object {fields shuffled others : List (String × Json)} (h : AlikeFields same fields shuffled)
      (hperm : shuffled.Perm others) : Alike same (.object fields) (.object others)

/-- Items that are alike one by one. -/
inductive AlikeItems (same : Number → Number → Prop) : List Json → List Json → Prop
  | nil : AlikeItems same [] []
  | cons {item other : Json} {rest others : List Json} (h : Alike same item other)
      (hrest : AlikeItems same rest others) : AlikeItems same (item :: rest) (other :: others)

/-- Fields with the same keys, in order, and values that are alike. -/
inductive AlikeFields (same : Number → Number → Prop) :
    List (String × Json) → List (String × Json) → Prop
  | nil : AlikeFields same [] []
  | cons {key : String} {value other : Json} {rest others : List (String × Json)}
      (h : Alike same value other) (hrest : AlikeFields same rest others) :
      AlikeFields same ((key, value) :: rest) ((key, other) :: others)
end

variable {same : Number → Number → Prop}

mutual
theorem Alike.refl (hsame : ∀ n, same n n) : (v : Json) → Alike same v v
  | .null => .null
  | .bool b => .bool b
  | .number n => .number (hsame n)
  | .text s => .text s
  | .array items => .array (AlikeItems.refl hsame items)
  | .object fields => .object (AlikeFields.refl hsame fields) (.refl fields)

theorem AlikeItems.refl (hsame : ∀ n, same n n) : (items : List Json) → AlikeItems same items items
  | [] => .nil
  | item :: rest => .cons (Alike.refl hsame item) (AlikeItems.refl hsame rest)

theorem AlikeFields.refl (hsame : ∀ n, same n n) :
    (fields : List (String × Json)) → AlikeFields same fields fields
  | [] => .nil
  | (_, value) :: rest => .cons (Alike.refl hsame value) (AlikeFields.refl hsame rest)
end

theorem Alike.of_perm (hsame : ∀ n, same n n) {fields others : List (String × Json)}
    (h : fields.Perm others) : Alike same (.object fields) (.object others) :=
  .object (.refl hsame fields) h

/-- Fields that are alike have the same keys in the same order. -/
theorem AlikeFields.keys_eq {fields shuffled : List (String × Json)}
    (h : AlikeFields same fields shuffled) : Entries.keys shuffled = Entries.keys fields := by
  induction fields generalizing shuffled with
  | nil =>
    cases h
    rfl
  | cons field rest ih =>
    cases h with
    | cons h hrest => exact congrArg (List.cons _) (ih hrest)

theorem alikeFields_iff {fields shuffled : List (String × Json)} :
    AlikeFields same fields shuffled ↔
      List.Forall₂ (fun field other => field.1 = other.1 ∧ Alike same field.2 other.2)
        fields shuffled := by
  constructor
  · intro h
    induction fields generalizing shuffled with
    | nil =>
      cases h
      exact .nil
    | cons field rest ih =>
      cases h with
      | cons h hrest => exact .cons ⟨rfl, h⟩ (ih hrest)
  · intro h
    induction h with
    | nil => exact .nil
    | @cons field other rest others h _ ih =>
      obtain ⟨key, value⟩ := field
      obtain ⟨key', other⟩ := other
      obtain ⟨rfl, halike⟩ := h
      exact .cons halike ih

/-- Fields in another order are alike to the others in another order. -/
theorem AlikeFields.exists_perm {fields shuffled others : List (String × Json)}
    (hperm : fields.Perm shuffled) (h : AlikeFields same shuffled others) :
    ∃ reordered, AlikeFields same fields reordered ∧ reordered.Perm others := by
  obtain ⟨reordered, halike, hothers⟩ := List.perm_comp_forall₂ hperm (alikeFields_iff.1 h)
  exact ⟨reordered, alikeFields_iff.2 halike, hothers⟩

mutual
theorem Alike.symm (hsame : ∀ {m n}, same m n → same n m) :
    {a b : Json} → Alike same a b → Alike same b a
  | _, _, .null => .null
  | _, _, .bool b => .bool b
  | _, _, .number h => .number (hsame h)
  | _, _, .text s => .text s
  | _, _, .array h => .array (h.symm hsame)
  | _, _, .object h hperm =>
    (AlikeFields.exists_perm hperm.symm (h.symm hsame)).elim fun _ hreordered =>
      .object hreordered.1 hreordered.2

theorem AlikeItems.symm (hsame : ∀ {m n}, same m n → same n m) :
    {items others : List Json} → AlikeItems same items others → AlikeItems same others items
  | _, _, .nil => .nil
  | _, _, .cons h hrest => .cons (h.symm hsame) (hrest.symm hsame)

theorem AlikeFields.symm (hsame : ∀ {m n}, same m n → same n m) :
    {fields others : List (String × Json)} → AlikeFields same fields others →
    AlikeFields same others fields
  | _, _, .nil => .nil
  | _, _, .cons h hrest => .cons (h.symm hsame) (hrest.symm hsame)
end

mutual
theorem Alike.trans (hsame : ∀ {l m n}, same l m → same m n → same l n) :
    {a b c : Json} → Alike same a b → Alike same b c → Alike same a c
  | _, _, _, .null, .null => .null
  | _, _, _, .bool b, .bool _ => .bool b
  | _, _, _, .number h, .number h' => .number (hsame h h')
  | _, _, _, .text s, .text _ => .text s
  | _, _, _, .array h, .array h' => .array (h.trans hsame h')
  | _, _, _, .object h hperm, .object h' hperm' =>
    (AlikeFields.exists_perm hperm h').elim fun _ hreordered =>
      .object (h.trans hsame hreordered.1) (hreordered.2.trans hperm')

theorem AlikeItems.trans (hsame : ∀ {l m n}, same l m → same m n → same l n) :
    {items others third : List Json} → AlikeItems same items others →
    AlikeItems same others third → AlikeItems same items third
  | _, _, _, .nil, .nil => .nil
  | _, _, _, .cons h hrest, .cons h' hrest' => .cons (h.trans hsame h') (hrest.trans hsame hrest')

theorem AlikeFields.trans (hsame : ∀ {l m n}, same l m → same m n → same l n) :
    {fields others third : List (String × Json)} → AlikeFields same fields others →
    AlikeFields same others third → AlikeFields same fields third
  | _, _, _, .nil, .nil => .nil
  | _, _, _, .cons h hrest, .cons h' hrest' => .cons (h.trans hsame h') (hrest.trans hsame hrest')
end

/-! ### Children -/

theorem AlikeItems.set (hsame : ∀ n, same n n) {child other : Json} (h : Alike same child other)
    (items : List Json) (position : Nat) :
    AlikeItems same (items.set position child) (items.set position other) := by
  induction items generalizing position with
  | nil => exact .nil
  | cons item rest ih =>
    cases position with
    | zero => exact .cons h (.refl hsame rest)
    | succ position => exact .cons (.refl hsame item) (ih position)

theorem AlikeFields.insert (hsame : ∀ n, same n n) {child other : Json}
    (h : Alike same child other) (name : String) (fields : List (String × Json)) :
    AlikeFields same (Entries.insert name child fields) (Entries.insert name other fields) := by
  induction fields with
  | nil => exact .cons h .nil
  | cons field rest ih =>
    obtain ⟨key, value⟩ := field
    by_cases hkey : key = name
    · simp only [Entries.insert, if_pos hkey]
      exact .cons h (.refl hsame rest)
    · simp only [Entries.insert, if_neg hkey]
      exact .cons (.refl hsame value) ih

/-- Children that are alike make containers that are alike. -/
theorem Alike.setChild (hsame : ∀ n, same n n) {child other : Json} (h : Alike same child other)
    (node : Json) (locator : Locator) :
    Alike same (node.setChild locator child) (node.setChild locator other) := by
  cases node with
  | array items =>
    cases locator with
    | index position => exact .array (.set hsame h items position)
    | field name => exact .refl hsame _
  | object fields =>
    cases locator with
    | index position => exact .refl hsame _
    | field name => exact .object (.insert hsame h name fields) (.refl _)
  | _ => exact .refl hsame _

end Json

end Reshape
