import Reshape.Json.Locator

/-!
# Trails and replacement

How `Json.resolve` and `Json.replace` go together: a document is a store whose addresses are trails.

* `Locator.container`, the kind of container that a locator goes into;
* the laws of a single child, `child?_setChild_of_ne`, `setChild_setChild`, `setChild_child`, and
  what a container keeps, its kind, its length and its keys;
* the laws of a trail, `replace_append`, `replace_replace`, `replace_self`;
* `Locator.Apart` and `Apart`, trails that part at two fields or at two indices;
  `apart_or_prefix` says that trails to two nodes part unless one of them goes on from the other;
  `resolve_replace_of_apart` says that a replacement at one of them is not seen at the other.
-/

namespace Reshape

namespace Entries

variable {κ : Type} {α : Type u} [DecidableEq κ]

theorem insert_insert (key : κ) (first second : α) (table : Entries κ α) :
    (table.insert key first).insert key second = table.insert key second := by
  induction table with
  | nil => simp [insert]
  | cons entry rest ih =>
    obtain ⟨k, v⟩ := entry
    by_cases h : k = key <;> simp [insert, h, ih]

/-- Putting in what is there changes nothing. -/
theorem insert_of_get? {key : κ} {value : α} {table : Entries κ α}
    (h : table.get? key = some value) : table.insert key value = table := by
  induction table with
  | nil => simp at h
  | cons entry rest ih =>
    obtain ⟨k, v⟩ := entry
    by_cases hk : k = key
    · simp_all [insert, get?]
    · simp only [get?, hk, if_false] at h
      simp [insert, hk, ih h]

theorem mem_of_get? {key : κ} {value : α} {table : Entries κ α}
    (h : table.get? key = some value) : (key, value) ∈ table := by
  induction table with
  | nil => simp at h
  | cons entry rest ih =>
    obtain ⟨k, v⟩ := entry
    by_cases hk : k = key
    · simp_all [get?]
    · simp only [get?, hk, if_false] at h
      exact List.mem_cons_of_mem _ (ih h)

/-- An entry is found under its key, as no other entry has it. -/
theorem get?_of_mem {key : κ} {value : α} {table : Entries κ α} (hkeys : table.WellFormed)
    (h : (key, value) ∈ table) : table.get? key = some value := by
  induction table with
  | nil => cases h
  | cons entry rest ih =>
    obtain ⟨k, v⟩ := entry
    obtain ⟨hnew, hrest⟩ := List.nodup_cons.1 hkeys
    rcases List.mem_cons.1 h with heq | hmem
    · cases heq
      exact if_pos rfl
    · have hne : k ≠ key := by
        rintro rfl
        exact hnew (List.mem_map.2 ⟨_, hmem, rfl⟩)
      rw [get?, if_neg hne, ih hrest hmem]

theorem length_insert_le (key : κ) (value : α) (table : Entries κ α) :
    (table.insert key value).length ≤ table.length + 1 := by
  induction table with
  | nil => simp [insert]
  | cons entry rest ih =>
    obtain ⟨k, v⟩ := entry
    by_cases hk : k = key
    · simp [insert, hk]
    · simpa [insert, hk] using ih

/-- A value in place of another leaves the number of entries. -/
theorem length_insert_of_get? {key : κ} {old : α} {table : Entries κ α}
    (h : table.get? key = some old) (value : α) :
    (table.insert key value).length = table.length := by
  induction table with
  | nil => simp at h
  | cons entry rest ih =>
    obtain ⟨k, v⟩ := entry
    by_cases hk : k = key
    · simp [insert, hk]
    · simp only [get?, hk, if_false] at h
      simp [insert, hk, ih h]

end Entries

/-- The kind of container that a locator goes into. -/
def Locator.container : Locator → Json.Kind
  | .field _ => .object
  | .index _ => .array

namespace Json

/-! ### One child -/

theorem kind_of_child? {node child : Json} {locator : Locator}
    (h : node.child? locator = some child) : node.kind = locator.container := by
  cases node <;> cases locator <;> simp_all [child?, get?, getIndex?, kind, Locator.container]

@[simp] theorem kind_setChild (node child : Json) (locator : Locator) :
    (node.setChild locator child).kind = node.kind := by
  cases node <;> cases locator <;> rfl

theorem length?_setChild {node old : Json} {locator : Locator}
    (h : node.child? locator = some old) (child : Json) :
    (node.setChild locator child).length? = node.length? := by
  cases node <;> cases locator <;> simp_all [setChild, length?, child?, get?]
  exact Entries.length_insert_of_get? h child

/-- The keys of an object in order. -/
def keys? (node : Json) : Option (List String) := node.toFields?.map Entries.keys

theorem keys?_setChild {node old : Json} {locator : Locator}
    (h : node.child? locator = some old) (child : Json) :
    (node.setChild locator child).keys? = node.keys? := by
  cases node <;> cases locator <;> simp_all [setChild, keys?, toFields?, child?, get?]
  exact Entries.keys_insert_of_mem (List.mem_map.2 ⟨_, Entries.mem_of_get? h, rfl⟩) child

theorem child?_of_empty {node : Json} (h : node.length? = some 0) (locator : Locator) :
    node.child? locator = none := by
  cases node <;> cases locator <;> simp_all [length?, child?, get?, getIndex?]

theorem child?_setChild_of_ne {locator other : Locator} (h : locator ≠ other)
    (node child : Json) : (node.setChild locator child).child? other = node.child? other := by
  cases node <;> cases locator <;> cases other <;>
    simp_all [child?, setChild, get?, getIndex?, Entries.get?_insert_of_ne]

theorem setChild_setChild (node first second : Json) (locator : Locator) :
    (node.setChild locator first).setChild locator second = node.setChild locator second := by
  cases node <;> cases locator <;> simp [setChild, Entries.insert_insert]

/-- Putting in the child that is there changes nothing. -/
theorem setChild_child {node child : Json} {locator : Locator}
    (h : node.child? locator = some child) : node.setChild locator child = node := by
  cases node <;> cases locator <;> simp_all [child?, setChild, get?, getIndex?]
  · obtain ⟨hi, rfl⟩ := List.getElem?_eq_some_iff.1 h
    exact List.set_getElem_self hi
  · exact Entries.insert_of_get? h

/-! ### Trails -/

theorem resolve_cons {locator : Locator} {node child : Json} (h : node.child? locator = some child)
    (trail : List Locator) : resolve (locator :: trail) node = resolve trail child := by
  simp [resolve, h]

theorem replace_cons {locator : Locator} {node child : Json} (h : node.child? locator = some child)
    (trail : List Locator) (new : Json) :
    replace (locator :: trail) new node = node.setChild locator (replace trail new child) := by
  simp [replace, h]

theorem kind_replace {trail : List Locator} (h : trail ≠ []) (new node : Json) :
    (replace trail new node).kind = node.kind := by
  cases trail with
  | nil => exact (h rfl).elim
  | cons locator trail =>
    rw [replace]
    split
    · exact kind_setChild _ _ _
    · rfl

/-- A node of the same kind in place of another leaves the kind of the document. -/
theorem kind_replace_of_kind {trail : List Locator} {document old new : Json}
    (h : resolve trail document = some old) (hkind : new.kind = old.kind) :
    (replace trail new document).kind = document.kind := by
  cases trail with
  | nil =>
    cases h
    exact hkind
  | cons locator trail => exact kind_replace (List.cons_ne_nil _ _) _ _

theorem exists_child_of_resolve {locator : Locator} {trail : List Locator} {node : Json}
    (h : (resolve (locator :: trail) node).isSome) :
    ∃ child, node.child? locator = some child ∧ (resolve trail child).isSome := by
  cases hc : node.child? locator with
  | none => simp [resolve, hc] at h
  | some child => exact ⟨child, rfl, by simpa [resolve, hc] using h⟩

/-- A replacement behind a trail is a replacement of the node at its end. -/
theorem replace_append {first : List Locator} {document node : Json}
    (h : resolve first document = some node) (second : List Locator) (new : Json) :
    replace (first ++ second) new document = replace first (replace second new node) document := by
  induction first generalizing document with
  | nil => cases h; rfl
  | cons locator trail ih =>
    obtain ⟨child, hc, -⟩ := exists_child_of_resolve (Option.isSome_of_eq_some h)
    rw [resolve_cons hc] at h
    rw [List.cons_append, replace_cons hc, replace_cons hc, ih h]

/-- The later of two replacements counts. -/
theorem replace_replace {trail : List Locator} {document : Json}
    (h : (resolve trail document).isSome) (first second : Json) :
    replace trail second (replace trail first document) = replace trail second document := by
  induction trail generalizing document with
  | nil => rfl
  | cons locator trail ih =>
    obtain ⟨child, hc, hr⟩ := exists_child_of_resolve h
    rw [replace_cons hc, replace_cons hc, replace_cons (child?_setChild (by simp [hc])), ih hr,
      setChild_setChild]

/-- Replacing a node by itself changes nothing. -/
theorem replace_self {trail : List Locator} {document node : Json}
    (h : resolve trail document = some node) : replace trail node document = document := by
  induction trail generalizing document with
  | nil => cases h; rfl
  | cons locator trail ih =>
    obtain ⟨child, hc, -⟩ := exists_child_of_resolve (Option.isSome_of_eq_some h)
    rw [resolve_cons hc] at h
    rw [replace_cons hc, ih h, setChild_child hc]

theorem resolve_append_replace {first : List Locator} {document : Json}
    (h : (resolve first document).isSome) (second : List Locator) (new : Json) :
    resolve (first ++ second) (replace first new document) = resolve second new := by
  rw [resolve_append, resolve_replace new h, Option.bind_some]

theorem replace_append_replace {first : List Locator} {document : Json}
    (h : (resolve first document).isSome) (second : List Locator) (new node : Json) :
    replace (first ++ second) new (replace first node document) =
      replace first (replace second new node) document := by
  rw [replace_append (resolve_replace node h), replace_replace h]

theorem resolve_isSome_of_append {first second : List Locator} {document : Json}
    (h : (resolve (first ++ second) document).isSome) :
    ∃ node, resolve first document = some node ∧ (resolve second node).isSome := by
  rw [resolve_append] at h
  cases hr : resolve first document with
  | none => simp [hr] at h
  | some node => exact ⟨node, rfl, by simpa [hr] using h⟩

/-- A container on the way to a replaced node holds the replacement at the same child. -/
theorem resolve_replace_above {above below : List Locator} {locator : Locator} {document : Json}
    (h : (resolve (above ++ locator :: below) document).isSome) (new : Json) :
    ∃ node child, resolve above document = some node ∧ node.child? locator = some child ∧
      resolve above (replace (above ++ locator :: below) new document) =
        some (node.setChild locator (replace below new child)) := by
  obtain ⟨node, hn, hb⟩ := resolve_isSome_of_append h
  obtain ⟨child, hc, -⟩ := exists_child_of_resolve hb
  refine ⟨node, child, hn, hc, ?_⟩
  rw [replace_append hn, resolve_replace _ (by simp [hn]), replace_cons hc]

/-- A container on the way to a replaced node stays a container of its kind. -/
theorem kind_resolve_replace {above below : List Locator} {locator : Locator} {document : Json}
    (h : (resolve (above ++ locator :: below) document).isSome) (new : Json) :
    ∃ node, resolve above (replace (above ++ locator :: below) new document) = some node ∧
      node.kind = locator.container := by
  obtain ⟨node, child, -, hc, hnode⟩ := resolve_replace_above h new
  exact ⟨_, hnode, by rw [kind_setChild, kind_of_child? hc]⟩

end Json

/-! ### Trails that part -/

/-- Two children of one container that are not the same child. -/
def Locator.Apart : Locator → Locator → Prop
  | .field name, .field other => name ≠ other
  | .index position, .index other => position ≠ other
  | _, _ => False

instance (first second : Locator) : Decidable (first.Apart second) := by
  cases first <;> cases second <;> unfold Locator.Apart <;> infer_instance

theorem Locator.Apart.ne {first second : Locator} (h : first.Apart second) : first ≠ second := by
  rintro rfl
  cases first <;> exact h rfl

theorem Locator.Apart.symm {first second : Locator} (h : first.Apart second) :
    second.Apart first := by
  cases first <;> cases second <;> first | exact Ne.symm h | exact h

theorem Locator.Apart.container_eq {first second : Locator} (h : first.Apart second) :
    first.container = second.container := by
  cases first <;> cases second <;> first | rfl | exact h.elim

/-- The first step at which two trails differ has fields in both or indices in both. -/
def Apart : List Locator → List Locator → Prop
  | first :: rest, second :: others =>
    if first = second then Apart rest others else first.Apart second
  | _, _ => False

namespace Apart

instance decide : (first second : List Locator) → Decidable (Apart first second)
  | [], _ => .isFalse (by simp [Apart])
  | _ :: _, [] => .isFalse (by simp [Apart])
  | first :: rest, second :: others =>
    haveI := decide rest others
    inferInstanceAs (Decidable (if first = second then Apart rest others else first.Apart second))

theorem cons_self (locator : Locator) (first second : List Locator) :
    Apart (locator :: first) (locator :: second) ↔ Apart first second := by
  simp [Apart]

theorem cons_of_apart {locator other : Locator} (h : locator.Apart other)
    (first second : List Locator) : Apart (locator :: first) (other :: second) := by
  simpa [Apart, h.ne] using h

theorem container_eq {locator other : Locator} {first second : List Locator}
    (h : Apart (locator :: first) (other :: second)) : locator.container = other.container := by
  by_cases heq : locator = other
  · rw [heq]
  · simp only [Apart, heq, if_false] at h
    exact h.container_eq

theorem ne_nil {first second : List Locator} (h : Apart first second) : second ≠ [] := by
  rintro rfl
  cases first <;> exact h

theorem append_left_iff (shared first second : List Locator) :
    Apart (shared ++ first) (shared ++ second) ↔ Apart first second := by
  induction shared with
  | nil => rfl
  | cons locator rest ih => rw [List.cons_append, List.cons_append, cons_self, ih]

theorem symm {first second : List Locator} (h : Apart first second) : Apart second first := by
  induction first generalizing second with
  | nil => simp [Apart] at h
  | cons locator rest ih =>
    cases second with
    | nil => simp [Apart] at h
    | cons other others =>
      by_cases heq : locator = other
      · subst heq
        rw [cons_self] at h ⊢
        exact ih h
      · simp only [Apart, heq, if_false] at h
        exact cons_of_apart h.symm _ _

/-- Where two trails part, so do all trails behind them. -/
theorem append {first second : List Locator} (h : Apart first second)
    (rest others : List Locator) : Apart (first ++ rest) (second ++ others) := by
  induction first generalizing second with
  | nil => simp [Apart] at h
  | cons locator first ih =>
    cases second with
    | nil => simp [Apart] at h
    | cons other second =>
      by_cases heq : locator = other
      · subst heq
        rw [cons_self] at h
        rw [List.cons_append, List.cons_append, cons_self]
        exact ih h
      · simp only [Apart, heq, if_false] at h
        exact cons_of_apart h _ _

/-- A trail that parts from a longer one does so on the first part of it, or goes along that. -/
theorem of_append {first shared second : List Locator} (h : Apart first (shared ++ second)) :
    Apart first shared ∨ ∃ rest, first = shared ++ rest := by
  induction shared generalizing first with
  | nil => exact .inr ⟨first, rfl⟩
  | cons locator shared ih =>
    cases first with
    | nil => exact h.elim
    | cons other first =>
      by_cases heq : other = locator
      · subst heq
        rw [List.cons_append, cons_self] at h
        rcases ih h with h | ⟨rest, rfl⟩
        · exact .inl ((cons_self _ _ _).2 h)
        · exact .inr ⟨rest, rfl⟩
      · simp only [List.cons_append, Apart, heq, if_false] at h
        exact .inl (cons_of_apart h _ _)

end Apart

theorem Locator.apart_of_ne {first second : Locator} (hne : first ≠ second)
    (hkind : first.container = second.container) : first.Apart second := by
  cases first <;> cases second
  case field.field name other => exact fun h => hne (congrArg Locator.field h)
  case index.index position other => exact fun h => hne (congrArg Locator.index h)
  case field.index => cases hkind
  case index.field => cases hkind

/-- Trails to two nodes of a document part, or one of them goes on from the other. -/
theorem Json.apart_or_prefix {first second : List Locator} {document : Json}
    (hfirst : (resolve first document).isSome) (hsecond : (resolve second document).isSome) :
    Apart first second ∨ (∃ below, second = first ++ below) ∨
      ∃ locator below, first = second ++ locator :: below := by
  induction first generalizing second document with
  | nil => exact .inr (.inl ⟨second, rfl⟩)
  | cons locator first ih =>
    cases second with
    | nil => exact .inr (.inr ⟨locator, first, rfl⟩)
    | cons other second =>
      obtain ⟨child, hc, hr⟩ := exists_child_of_resolve hfirst
      obtain ⟨child', hc', hr'⟩ := exists_child_of_resolve hsecond
      by_cases hsame : locator = other
      · subst hsame
        cases hc.symm.trans hc'
        rcases ih hr hr' with hapart | ⟨below, rfl⟩ | ⟨next, below, rfl⟩
        · exact .inl ((Apart.cons_self _ _ _).2 hapart)
        · exact .inr (.inl ⟨below, rfl⟩)
        · exact .inr (.inr ⟨next, below, rfl⟩)
      · have hkind : locator.container = other.container :=
          (kind_of_child? hc).symm.trans (kind_of_child? hc')
        exact .inl (Apart.cons_of_apart (Locator.apart_of_ne hsame hkind) _ _)

/-- A replacement is not seen at the end of a trail that parts from its own. -/
theorem Json.resolve_replace_of_apart {trail other : List Locator} (h : Apart trail other)
    (new document : Json) :
    resolve other (replace trail new document) = resolve other document := by
  induction trail generalizing other document with
  | nil => simp [Apart] at h
  | cons locator trail ih =>
    cases other with
    | nil => simp [Apart] at h
    | cons first others =>
      cases hc : document.child? locator with
      | none => simp [replace, hc]
      | some child =>
        -- Only along shared locators is the replacement on the way; then the trails part later.
        rw [replace_cons hc]
        by_cases heq : locator = first
        · subst heq
          rw [Apart.cons_self] at h
          rw [resolve_cons (child?_setChild (by simp [hc])), ih h, resolve_cons hc]
        · rw [resolve, resolve, child?_setChild_of_ne heq]

end Reshape
