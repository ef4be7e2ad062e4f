/-!
# Ordered entries

A table that remembers the order in which its keys came in is the list of its entries. Putting a
value under a key that is already there keeps the key's place, a new key goes to the end, and
taking a key out closes the gap.

* `Entries κ α`, with `get?`, `insert`, `erase`, `keys`, `values`;
* `merge`, which inserts the entries of one table into another, in order;
* `ofList`, the table that a list of entries with repeated keys describes;
* `WellFormed`: no key occurs twice. Every operation keeps it (`WellFormed.insert`,
  `WellFormed.erase`, `WellFormed.merge`), and `ofList` establishes it.
-/

namespace Reshape

/-- A table as the list of its entries, first in first. -/
abbrev Entries (κ : Type) (α : Type u) := List (κ × α)

namespace Entries

variable {κ : Type} {α : Type u} [DecidableEq κ]

/-- The value under a key. -/
def get? (key : κ) : Entries κ α → Option α
  | [] => none
  | (k, v) :: rest => if k = key then some v else get? key rest

/-- Put a value under a key: in the key's place if it has one, else at the end. -/
def insert (key : κ) (value : α) : Entries κ α → Entries κ α
  | [] => [(key, value)]
  | (k, v) :: rest => if k = key then (key, value) :: rest else (k, v) :: insert key value rest

/-- Take a key out; the entries around it keep their order. -/
def erase (key : κ) : Entries κ α → Entries κ α
  | [] => []
  | (k, v) :: rest => if k = key then rest else (k, v) :: erase key rest

omit [DecidableEq κ] in
/-- The keys in order. -/
def keys (table : Entries κ α) : List κ := table.map Prod.fst

omit [DecidableEq κ] in
/-- The values in the order of their keys. -/
def values (table : Entries κ α) : List α := table.map Prod.snd

/-- Insert the entries of `second` into `first`, in order, so that `second` wins. -/
def merge (first second : Entries κ α) : Entries κ α :=
  second.foldl (fun table entry => table.insert entry.1 entry.2) first

/-- The table of a list of entries: a repeated key keeps its first place and its last value. -/
def ofList (entries : List (κ × α)) : Entries κ α := merge [] entries

omit [DecidableEq κ] in
/-- No key occurs twice. -/
def WellFormed (table : Entries κ α) : Prop := table.keys.Nodup

/-! ### Look-up after each operation -/

@[simp] theorem get?_nil (key : κ) : get? key ([] : Entries κ α) = none := rfl

@[simp] theorem get?_insert_self (key : κ) (value : α) (table : Entries κ α) :
    (table.insert key value).get? key = some value := by
  induction table with
  | nil => simp [insert, get?]
  | cons entry rest ih =>
    obtain ⟨k, v⟩ := entry
    by_cases h : k = key <;> simp [insert, get?, h, ih]

theorem get?_insert_of_ne {key other : κ} (h : key ≠ other) (value : α) (table : Entries κ α) :
    (table.insert key value).get? other = table.get? other := by
  induction table with
  | nil => simp [insert, get?, h]
  | cons entry rest ih =>
    obtain ⟨k, v⟩ := entry
    by_cases hk : k = key
    · subst hk
      simp [insert, get?, h]
    · by_cases ho : k = other
      · subst ho
        simp [insert, get?, hk]
      · simp [insert, get?, hk, ho, ih]

theorem get?_erase_of_ne {key other : κ} (h : key ≠ other) (table : Entries κ α) :
    (table.erase key).get? other = table.get? other := by
  induction table with
  | nil => rfl
  | cons entry rest ih =>
    obtain ⟨k, v⟩ := entry
    by_cases hk : k = key
    · subst hk
      simp [erase, get?, h]
    · by_cases ho : k = other
      · subst ho
        simp [erase, get?, hk]
      · simp [erase, get?, hk, ho, ih]

/-- A key that is there keeps every key in its place. -/
theorem keys_insert_of_mem {key : κ} {table : Entries κ α} (h : key ∈ table.keys) (value : α) :
    (table.insert key value).keys = table.keys := by
  induction table with
  | nil => simp [keys] at h
  | cons entry rest ih =>
    obtain ⟨k, v⟩ := entry
    by_cases hk : k = key
    · simp [insert, keys, hk]
    · have hr : key ∈ keys rest := by
        rcases List.mem_cons.1 h with rfl | hr
        · exact absurd rfl hk
        · exact hr
      simpa [insert, keys, hk] using ih hr

/-- A new key goes to the end. -/
theorem insert_of_notMem {key : κ} {table : Entries κ α} (h : key ∉ table.keys) (value : α) :
    table.insert key value = table ++ [(key, value)] := by
  induction table with
  | nil => rfl
  | cons entry rest ih =>
    obtain ⟨k, v⟩ := entry
    obtain ⟨hk, hr⟩ : key ≠ k ∧ key ∉ keys rest := by simpa [keys] using h
    simp [insert, Ne.symm hk, ih hr]

omit [DecidableEq κ] in
theorem keys_append (first second : Entries κ α) :
    keys (first ++ second) = first.keys ++ second.keys := by
  simp [keys]

theorem keys_insert (key : κ) (value : α) (table : Entries κ α) :
    (table.insert key value).keys =
      if key ∈ table.keys then table.keys else table.keys ++ [key] := by
  split
  case isTrue h => exact keys_insert_of_mem h value
  case isFalse h =>
    rw [insert_of_notMem h, keys_append]
    rfl

/-! ### Distinct keys -/

theorem WellFormed.insert {table : Entries κ α} (h : table.WellFormed) (key : κ) (value : α) :
    (table.insert key value).WellFormed := by
  by_cases hk : key ∈ table.keys
  · rw [WellFormed, keys_insert_of_mem hk]
    exact h
  · rw [WellFormed, insert_of_notMem hk, keys_append]
    refine List.nodup_append.2 ⟨h, by simp [keys], ?_⟩
    intro a ha b hb hab
    rw [List.mem_singleton.1 (show b ∈ [key] from hb)] at hab
    exact hk (hab ▸ ha)

theorem keys_erase_sublist (key : κ) (table : Entries κ α) :
    (table.erase key).keys.Sublist table.keys := by
  induction table with
  | nil => exact List.Sublist.refl _
  | cons entry rest ih =>
    obtain ⟨k, v⟩ := entry
    by_cases hk : k = key
    · simp [Entries.erase, keys, hk]
    · simpa [Entries.erase, keys, hk] using ih

theorem WellFormed.erase {table : Entries κ α} (h : table.WellFormed) (key : κ) :
    (table.erase key).WellFormed :=
  List.Nodup.sublist (keys_erase_sublist key table) h

theorem WellFormed.merge {first : Entries κ α} (h : first.WellFormed) (second : Entries κ α) :
    (first.merge second).WellFormed := by
  induction second generalizing first with
  | nil => exact h
  | cons entry rest ih => exact ih (h.insert entry.1 entry.2)

theorem wellFormed_ofList (entries : List (κ × α)) : (ofList entries).WellFormed :=
  WellFormed.merge (show WellFormed ([] : Entries κ α) from List.nodup_nil) entries

end Entries

end Reshape
