import Reshape.Entries

/-!
# Unions of tables

A table is merged into another by inserting its entries, one after the other. Where both have a key,
the second one wins, but the key stays in its place. That makes an ordered union, and a table is
told by two things: which keys it has, in which order, and what is under each.

* `get?_eq_none_iff` and `eq_of_keys`, tables with the same keys in the same order and the same
  values;
* `keys_merge` and `get?_merge`, the keys and the values of a union;
* `merge_assoc`, `nil_merge` and `merge_self`, which follow.
-/

namespace Reshape

namespace Entries

variable {κ : Type} {α : Type u} [DecidableEq κ] {key : κ}
  {table other first second third : Entries κ α}

/-! ### Keys and values -/

theorem get?_eq_none_iff : table.get? key = none ↔ key ∉ table.keys := by
  induction table with
  | nil => exact iff_of_true rfl List.not_mem_nil
  | cons entry rest ih =>
    obtain ⟨k, v⟩ := entry
    have hcons : keys ((k, v) :: rest) = k :: keys rest := rfl
    rw [get?, hcons, List.mem_cons, not_or]
    by_cases hk : k = key
    · simp [hk]
    · simp [hk, Ne.symm hk, ih]

/-- Tables with the same keys in the same order and the same values are the same. -/
theorem eq_of_keys (hkeys : table.keys = other.keys) (htable : table.WellFormed)
    (hvalues : ∀ key, table.get? key = other.get? key) : table = other := by
  induction table generalizing other with
  | nil =>
    cases other with
    | nil => rfl
    | cons entry rest => cases hkeys
  | cons entry rest ih =>
    cases other with
    | nil => cases hkeys
    | cons entry' rest' =>
      obtain ⟨k, v⟩ := entry
      obtain ⟨k', v'⟩ := entry'
      obtain ⟨rfl, hrest⟩ : k = k' ∧ keys rest = keys rest' := List.cons.inj hkeys
      obtain ⟨hnew, hnodup⟩ := List.nodup_cons.1 htable
      have hv : v = v' := by simpa [get?] using hvalues k
      have hbehind : rest = rest' := by
        refine ih hrest hnodup fun key => ?_
        by_cases hk : k = key
        · subst hk
          have hnew' : k ∉ keys rest' := hrest ▸ hnew
          rw [get?_eq_none_iff.2 hnew, get?_eq_none_iff.2 hnew']
        · simpa [get?, hk] using hvalues key
      rw [hv, hbehind]

/-! ### Unions -/

theorem merge_cons (entry : κ × α) (rest : Entries κ α) :
    first.merge (entry :: rest) = (first.insert entry.1 entry.2).merge rest := rfl

/-- The keys of the first table stay in their places, and the new ones of the second follow in their
order. -/
theorem keys_merge (h : second.WellFormed) :
    (first.merge second).keys = first.keys ++ second.keys.filter (· ∉ first.keys) := by
  induction second generalizing first with
  | nil => exact (List.append_nil first.keys).symm
  | cons entry rest ih =>
    obtain ⟨k, v⟩ := entry
    obtain ⟨hnew, hrest⟩ := List.nodup_cons.1 h
    have hcons : keys ((k, v) :: rest) = k :: keys rest := rfl
    rw [merge_cons, ih hrest, keys_insert, hcons]
    by_cases hk : k ∈ first.keys
    · rw [if_pos hk, List.filter_cons_of_neg (by simpa using hk)]
    · have hsame : (keys rest).filter (· ∉ first.keys ++ [k]) =
          (keys rest).filter (· ∉ first.keys) := by
        refine List.filter_congr fun key hkey => ?_
        have hne : key ≠ k := fun heq => hnew (heq ▸ hkey)
        simp [hne]
      rw [if_neg hk, hsame, List.filter_cons_of_pos (by simpa using hk), List.append_assoc,
        List.singleton_append]

/-- The second table wins. -/
theorem get?_merge (h : second.WellFormed) (key : κ) :
    (first.merge second).get? key = (second.get? key).or (first.get? key) := by
  induction second generalizing first with
  | nil => rfl
  | cons entry rest ih =>
    obtain ⟨k, v⟩ := entry
    obtain ⟨hnew, hrest⟩ := List.nodup_cons.1 h
    rw [merge_cons, ih hrest, get?]
    by_cases hk : k = key
    · subst hk
      rw [get?_eq_none_iff.2 hnew, get?_insert_self, if_pos rfl]
      rfl
    · rw [get?_insert_of_ne hk, if_neg hk]

/-- **The union of three tables does not depend on which two are put together first**, not even in
its order. -/
theorem merge_assoc (hfirst : first.WellFormed) (hsecond : second.WellFormed)
    (hthird : third.WellFormed) :
    (first.merge second).merge third = first.merge (second.merge third) := by
  have hbehind : (second.merge third).WellFormed := hsecond.merge third
  refine eq_of_keys ?_ ((hfirst.merge second).merge third) fun key => ?_
  · have hnew : third.keys.filter (· ∉ first.keys ++ second.keys.filter (· ∉ first.keys)) =
        (third.keys.filter (· ∉ second.keys)).filter (· ∉ first.keys) := by
      rw [List.filter_filter]
      refine List.filter_congr fun key _ => ?_
      by_cases hkey : key ∈ first.keys <;> simp [hkey]
    rw [keys_merge hthird, keys_merge hsecond, keys_merge hbehind, keys_merge hthird, hnew,
      List.filter_append, List.append_assoc]
  · rw [get?_merge hthird, get?_merge hsecond, get?_merge hbehind, get?_merge hthird,
      Option.or_assoc]

theorem nil_merge (h : table.WellFormed) : merge [] table = table := by
  have hnil : WellFormed ([] : Entries κ α) := List.nodup_nil
  refine eq_of_keys ?_ (hnil.merge table) fun key => ?_
  · rw [keys_merge h]
    exact List.filter_eq_self.2 fun _ _ => rfl
  · rw [get?_merge h, get?_nil, Option.or_none]

/-- The entries of a table without repeated keys are the table. -/
theorem ofList_of_wellFormed (h : table.WellFormed) : ofList table = table := nil_merge h

theorem merge_self (h : table.WellFormed) : table.merge table = table := by
  refine eq_of_keys ?_ (h.merge table) fun key => ?_
  · rw [keys_merge h, List.filter_eq_nil_iff.2 fun key hkey => by simpa using hkey,
      List.append_nil]
  · rw [get?_merge h, Option.or_self]

end Entries

end Reshape
