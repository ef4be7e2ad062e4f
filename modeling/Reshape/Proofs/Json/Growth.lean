import Reshape.Proofs.Cursor.Change
import Reshape.Proofs.Entries

/-!
# Documents that grow

A move into a child puts there what is missing and leaves everything else. So a document grows: its
scalars stay, its arrays get items behind those that they have, and its objects get fields behind
theirs. What is put in may grow in turn.

* `Json.GrowsTo`, with `ItemsGrowTo` and `FieldsGrowTo`, an order on documents: `GrowsTo.refl`,
  `GrowsTo.trans`;
* `GrowsTo.child?` and `GrowsTo.resolve`, what there was before is found along the same trail;
* `GrowsTo.setChild` and `GrowsTo.replace`, a document of which one node has grown;
* `growsTo_withField` and `growsTo_withIndex`, the two ways in which a node grows.
-/

namespace Reshape

namespace Json

mutual
/-- One document grows to another. -/
inductive GrowsTo : Json → Json → Prop
  | null : GrowsTo .null .null
  | bool (b : Bool) : GrowsTo (.bool b) (.bool b)
  | number (n : Number) : GrowsTo (.number n) (.number n)
  | text (s : String) : GrowsTo (.text s) (.text s)
  | array {items grown : List Json} (h : ItemsGrowTo items grown) :
      GrowsTo (.array items) (.array grown)
  | object {fields grown : List (String × Json)}
      (h : FieldsGrowTo (Entries.keys fields) fields grown) :
      GrowsTo (.object fields) (.object grown)

/-- The items of an array grow, and behind them there are empty objects that have grown. -/
inductive ItemsGrowTo : List Json → List Json → Prop
  | nil : ItemsGrowTo [] []
  | added {item : Json} {grown : List Json} (h : GrowsTo emptyObject item)
      (hrest : ItemsGrowTo [] grown) : ItemsGrowTo [] (item :: grown)
  | cons {item grownItem : Json} {rest grown : List Json} (h : GrowsTo item grownItem)
      (hrest : ItemsGrowTo rest grown) : ItemsGrowTo (item :: rest) (grownItem :: grown)

/-- The values of an object grow under their keys. Behind them there are other keys than the object
has, with what is put in place of a missing value and has grown. -/
inductive FieldsGrowTo : (keys : List String) → List (String × Json) → List (String × Json) → Prop
  | nil (keys : List String) : FieldsGrowTo keys [] []
  | added {keys : List String} {key : String} {mode : FieldMode} {value : Json}
      {grown : List (String × Json)} (hkey : key ∉ keys) (h : GrowsTo mode.initial value)
      (hrest : FieldsGrowTo keys [] grown) : FieldsGrowTo keys [] ((key, value) :: grown)
  | cons {keys : List String} {key : String} {value grownValue : Json}
      {rest grown : List (String × Json)} (h : GrowsTo value grownValue)
      (hrest : FieldsGrowTo keys rest grown) :
      FieldsGrowTo keys ((key, value) :: rest) ((key, grownValue) :: grown)
end

variable {before after document node old new : Json} {items grown : List Json}
  {keys otherKeys : List String} {fields grownFields : List (String × Json)} {locator : Locator}
  {trail : List Locator}

/-! ### An order -/

theorem GrowsTo.kind_eq (h : GrowsTo before after) : after.kind = before.kind := by
  cases h <;> rfl

mutual
theorem GrowsTo.refl : (v : Json) → GrowsTo v v
  | .null => .null
  | .bool b => .bool b
  | .number n => .number n
  | .text s => .text s
  | .array items => .array (ItemsGrowTo.refl items)
  | .object fields => .object (FieldsGrowTo.refl _ fields)

theorem ItemsGrowTo.refl : (items : List Json) → ItemsGrowTo items items
  | [] => .nil
  | item :: rest => .cons (GrowsTo.refl item) (ItemsGrowTo.refl rest)

theorem FieldsGrowTo.refl (keys : List String) :
    (fields : List (String × Json)) → FieldsGrowTo keys fields fields
  | [] => .nil keys
  | (_, value) :: rest => .cons (GrowsTo.refl value) (FieldsGrowTo.refl keys rest)
end

/-- The keys that there were are still there. -/
theorem FieldsGrowTo.keys_subset (h : FieldsGrowTo keys fields grownFields) :
    Entries.keys fields ⊆ Entries.keys grownFields := by
  induction fields generalizing grownFields with
  | nil => exact List.nil_subset _
  | cons field rest ih =>
    cases h with
    | cons h hrest => exact List.cons_subset_cons _ (ih hrest)

/-- What is new to many keys is new to some of them. -/
theorem FieldsGrowTo.of_subset (hsubset : keys ⊆ otherKeys)
    (h : FieldsGrowTo otherKeys fields grownFields) : FieldsGrowTo keys fields grownFields := by
  induction grownFields generalizing fields with
  | nil =>
    cases h
    exact .nil keys
  | cons field rest ih =>
    cases h with
    | added hkey h hrest => exact .added (fun hmem => hkey (hsubset hmem)) h (ih hrest)
    | cons h hrest => exact .cons h (ih hrest)

mutual
theorem GrowsTo.trans {a b c : Json} : GrowsTo a b → GrowsTo b c → GrowsTo a c
  | .null, h => h
  | .bool _, h => h
  | .number _, h => h
  | .text _, h => h
  | .array h, .array h' => .array (h.trans h')
  | .object h, .object h' => .object (h.trans (h'.of_subset h.keys_subset))

theorem ItemsGrowTo.trans {as bs cs : List Json} :
    ItemsGrowTo as bs → ItemsGrowTo bs cs → ItemsGrowTo as cs
  | .nil, h => h
  | .added h hrest, .cons h' hrest' => .added (h.trans h') (hrest.trans hrest')
  | .cons h hrest, .cons h' hrest' => .cons (h.trans h') (hrest.trans hrest')

theorem FieldsGrowTo.trans {keys : List String} {as bs cs : List (String × Json)} :
    FieldsGrowTo keys as bs → FieldsGrowTo keys bs cs → FieldsGrowTo keys as cs
  | .nil _, h => h
  | .added hkey h hrest, .cons h' hrest' => .added hkey (h.trans h') (hrest.trans hrest')
  | .cons h hrest, .cons h' hrest' => .cons (h.trans h') (hrest.trans hrest')
end

/-! ### What was there before -/

theorem ItemsGrowTo.exists_getElem? (h : ItemsGrowTo items grown) {position : Nat}
    (hnode : items[position]? = some node) :
    ∃ after, grown[position]? = some after ∧ GrowsTo node after := by
  induction items generalizing grown position with
  | nil => cases hnode
  | cons item rest ih =>
    cases h with
    | cons h hrest =>
      cases position with
      | zero =>
        cases hnode
        exact ⟨_, rfl, h⟩
      | succ position => exact ih hrest hnode

theorem FieldsGrowTo.exists_get? (h : FieldsGrowTo keys fields grownFields) {name : String}
    (hnode : Entries.get? name fields = some node) :
    ∃ after, Entries.get? name grownFields = some after ∧ GrowsTo node after := by
  induction fields generalizing grownFields with
  | nil => cases hnode
  | cons field rest ih =>
    cases h with
    | @cons _ key _ _ _ _ h hrest =>
      rw [Entries.get?] at hnode ⊢
      by_cases hkey : key = name
      · rw [if_pos hkey] at hnode ⊢
        cases hnode
        exact ⟨_, rfl, h⟩
      · rw [if_neg hkey] at hnode ⊢
        exact ih hrest hnode

theorem GrowsTo.exists_child? (h : GrowsTo before after)
    (hnode : before.child? locator = some node) :
    ∃ child, after.child? locator = some child ∧ GrowsTo node child := by
  cases h with
  | array h =>
    cases locator with
    | field name => cases hnode
    | index position => exact h.exists_getElem? hnode
  | object h =>
    cases locator with
    | field name => exact h.exists_get? hnode
    | index position => cases hnode
  | _ => cases locator <;> cases hnode

/-- **What was in a document is still there, along the same trail, and has grown.** -/
theorem GrowsTo.exists_resolve (h : GrowsTo before after)
    (hnode : resolve trail before = some node) :
    ∃ found, resolve trail after = some found ∧ GrowsTo node found := by
  induction trail generalizing before after with
  | nil =>
    cases hnode
    exact ⟨after, rfl, h⟩
  | cons locator trail ih =>
    obtain ⟨child, hchild, hrest⟩ := Option.bind_eq_some_iff.1 hnode
    obtain ⟨grownChild, hgrown, hgrows⟩ := h.exists_child? hchild
    rw [resolve_cons hgrown]
    exact ih hgrows hrest

/-! ### One node that grows -/

theorem ItemsGrowTo.set {position : Nat} (hold : items[position]? = some old)
    (h : GrowsTo old new) : ItemsGrowTo items (items.set position new) := by
  induction items generalizing position with
  | nil => cases hold
  | cons item rest ih =>
    cases position with
    | zero =>
      cases hold
      exact .cons h (.refl rest)
    | succ position => exact .cons (.refl item) (ih hold)

theorem FieldsGrowTo.insert {name : String} (hold : Entries.get? name fields = some old)
    (h : GrowsTo old new) : FieldsGrowTo keys fields (Entries.insert name new fields) := by
  induction fields with
  | nil => cases hold
  | cons field rest ih =>
    obtain ⟨key, value⟩ := field
    rw [Entries.get?] at hold
    rw [Entries.insert]
    by_cases hkey : key = name
    · rw [if_pos hkey] at hold ⊢
      cases hold
      subst hkey
      exact .cons h (.refl keys rest)
    · rw [if_neg hkey] at hold ⊢
      exact .cons (.refl value) (ih hold)

theorem GrowsTo.setChild (hold : node.child? locator = some old) (h : GrowsTo old new) :
    GrowsTo node (node.setChild locator new) := by
  cases node with
  | array items =>
    cases locator with
    | field name => cases hold
    | index position => exact .array (.set hold h)
  | object fields =>
    cases locator with
    | field name => exact .object (.insert hold h)
    | index position => cases hold
  | _ => cases locator <;> cases hold

/-- A document grows with each of its nodes. -/
theorem GrowsTo.replace (hold : resolve trail document = some old) (h : GrowsTo old new) :
    GrowsTo document (replace trail new document) := by
  induction trail generalizing document with
  | nil =>
    cases hold
    exact h
  | cons locator trail ih =>
    obtain ⟨child, hchild, hrest⟩ := Option.bind_eq_some_iff.1 hold
    rw [replace_cons hchild]
    exact .setChild hchild (ih hrest)

/-! ### What is put in -/

theorem itemsGrowTo_append (items : List Json) (count : Nat) :
    ItemsGrowTo items (items ++ List.replicate count emptyObject) := by
  induction items with
  | nil =>
    induction count with
    | zero => exact .nil
    | succ count ih => exact .added (.refl emptyObject) ih
  | cons item rest ih => exact .cons (.refl item) ih

theorem fieldsGrowTo_append {name : String} (hname : name ∉ keys) (mode : FieldMode)
    (fields : List (String × Json)) :
    FieldsGrowTo keys fields (fields ++ [(name, mode.initial)]) := by
  induction fields with
  | nil => exact .added hname (.refl mode.initial) (.nil keys)
  | cons field rest ih => exact .cons (.refl field.2) ih

/-- An object grows by a field that is missing. -/
theorem growsTo_withField {mode : FieldMode} {name : String}
    (haccepts : ∀ value, node.get? name = some value → mode.accepts value = true)
    (h : Cursor.withField mode name node = .ok new) : GrowsTo node new := by
  cases node with
  | object fields =>
    have haccepts (value : Json) (hvalue : Entries.get? name fields = some value) :
        mode.accepts value = true := haccepts value hvalue
    rw [Cursor.withField] at h
    split at h
    next existing hexisting =>
      rw [if_pos (haccepts existing hexisting)] at h
      cases h
      exact .refl _
    next hmissing =>
      have hname : name ∉ Entries.keys fields := Entries.get?_eq_none_iff.1 hmissing
      cases h
      rw [Entries.insert_of_notMem hname]
      exact .object (fieldsGrowTo_append hname mode fields)
  | _ => cases h

/-- An array grows by the items up to a position. -/
theorem growsTo_withIndex {limit position : Nat}
    (h : Cursor.withIndex limit position node = .ok new) : GrowsTo node new := by
  cases node with
  | array items =>
    unfold Cursor.withIndex at h
    simp only at h
    split at h
    · cases h
      exact .refl _
    · split at h
      · cases h
      · cases h
        exact .array (itemsGrowTo_append items _)
  | _ => cases h

end Json

end Reshape
