import Mathlib.Data.List.Forall2

/-!
# Results

Equations and inversions of `Except`, for the functions that fail with an error or a fault.

* `ok_bind`, `map_ok`, `mapError_ok` and the like, for a result that is known;
* `exceptMap_pure`, `exceptMap_map` and `exceptMap_bind`, a function of a result;
* `bind_eq_ok`, `map_eq_ok`, `mapError_eq_ok`, what a success is made from;
* `mapM_congr`, `mapM_eq_ok`, `mapM_of_forall₂`, `mapM_map_eq_ok` and `mapM_append_of_ok`, for a
  list of results;
* `foldlM_range_induction`, an invariant of a counted loop that succeeds, `foldlM_range_error`, a
  loop that fails, and `foldlM_range_fixed`, a loop that changes nothing.
-/

namespace Reshape

variable {ε ε' α β : Type}

@[simp] theorem ok_bind (a : α) (f : α → Except ε β) : (Except.ok a >>= f) = f a := rfl

@[simp] theorem error_bind (e : ε) (f : α → Except ε β) :
    ((Except.error e : Except ε α) >>= f) = .error e := rfl

@[simp] theorem map_ok (a : α) (f : α → β) : (f <$> (Except.ok a : Except ε α)) = .ok (f a) := rfl

@[simp] theorem map_error (e : ε) (f : α → β) :
    (f <$> (Except.error e : Except ε α)) = .error e := rfl

@[simp] theorem mapError_ok (f : ε → ε') (a : α) : (Except.ok a).mapError f = .ok a := rfl

@[simp] theorem mapError_error (f : ε → ε') (e : ε) :
    (Except.error e : Except ε α).mapError f = .error (f e) := rfl

theorem exceptMap_pure (a : α) (f : α → β) : (pure a : Except ε α).map f = .ok (f a) := rfl

theorem exceptMap_map {γ : Type} (x : Except ε α) (f : α → β) (g : β → γ) :
    (x.map f).map g = x.map fun a => g (f a) := by
  cases x <;> rfl

theorem exceptMap_bind {γ : Type} (x : Except ε α) (f : α → Except ε β) (g : β → γ) :
    (x >>= f).map g = x >>= fun a => (f a).map g := by
  cases x <;> rfl

theorem bind_eq_ok {x : Except ε α} {f : α → Except ε β} {b : β} :
    (x >>= f) = .ok b ↔ ∃ a, x = .ok a ∧ f a = .ok b := by
  cases x <;> simp

theorem map_eq_ok {x : Except ε α} {f : α → β} {b : β} :
    x.map f = .ok b ↔ ∃ a, x = .ok a ∧ f a = b := by
  cases x <;> simp [Except.map]

theorem mapError_eq_ok {x : Except ε α} {f : ε → ε'} {a : α} :
    x.mapError f = .ok a ↔ x = .ok a := by
  cases x <;> simp

theorem exists_ok_of_isOk {x : Except ε α} (h : x.isOk = true) : ∃ a, x = .ok a := by
  cases x with
  | ok a => exact ⟨a, rfl⟩
  | error e => cases h

theorem mapM_congr {f g : α → Except ε β} {xs : List α} (h : ∀ x ∈ xs, f x = g x) :
    xs.mapM f = xs.mapM g := by
  induction xs with
  | nil => rfl
  | cons x xs ih =>
    rw [List.mapM_cons, List.mapM_cons, h x List.mem_cons_self,
      ih fun y hy => h y (List.mem_cons_of_mem _ hy)]

/-- All results of a list that succeeds are successes. -/
theorem mapM_eq_ok {f : α → Except ε β} {xs : List α} {ys : List β} (h : xs.mapM f = .ok ys) :
    List.Forall₂ (fun x y => f x = .ok y) xs ys := by
  induction xs generalizing ys with
  | nil =>
    cases h
    exact .nil
  | cons x xs ih =>
    rw [List.mapM_cons] at h
    obtain ⟨y, hy, h⟩ := bind_eq_ok.1 h
    obtain ⟨rest, hrest, h⟩ := bind_eq_ok.1 h
    cases h
    exact .cons hy (ih hrest)

theorem mapM_of_forall₂ {f : α → Except ε β} {xs : List α} {ys : List β}
    (h : List.Forall₂ (fun x y => f x = .ok y) xs ys) : xs.mapM f = .ok ys := by
  induction h with
  | nil => rfl
  | cons hxy _ ih =>
    rw [List.mapM_cons, hxy, ok_bind, ih]
    rfl

/-- What each item is read back from, the list is read back from. -/
theorem mapM_map_eq_ok {f : β → Except ε α} {g : α → β} {xs : List α}
    (h : ∀ x ∈ xs, f (g x) = .ok x) : (xs.map g).mapM f = .ok xs := by
  induction xs with
  | nil => rfl
  | cons x xs ih =>
    rw [List.map_cons, List.mapM_cons, h x List.mem_cons_self,
      ih fun y hy => h y (List.mem_cons_of_mem _ hy)]
    rfl

theorem exists_of_mem_mapM {f : α → Except ε β} {xs : List α} {ys : List β} {y : β}
    (h : xs.mapM f = .ok ys) (hy : y ∈ ys) : ∃ x ∈ xs, f x = .ok y := by
  have hall := mapM_eq_ok h
  clear h
  induction hall with
  | nil => cases hy
  | cons hxy _ ih =>
    rcases List.mem_cons.1 hy with rfl | hy
    · exact ⟨_, List.mem_cons_self, hxy⟩
    · obtain ⟨x, hx, hxy⟩ := ih hy
      exact ⟨x, List.mem_cons_of_mem _ hx, hxy⟩

theorem exists_ok_of_mem_mapM {f : α → Except ε β} {xs : List α} {ys : List β} {x : α}
    (h : xs.mapM f = .ok ys) (hx : x ∈ xs) : ∃ y, f x = .ok y := by
  have hall := mapM_eq_ok h
  clear h
  induction hall with
  | nil => cases hx
  | cons hxy _ ih =>
    rcases List.mem_cons.1 hx with rfl | hx
    · exact ⟨_, hxy⟩
    · exact ih hx

/-- Behind results that are successes, the rest decides. -/
theorem mapM_append_of_ok {f : α → Except ε β} {xs ys : List α} {front : List β}
    (h : xs.mapM f = .ok front) : (xs ++ ys).mapM f = (ys.mapM f).map (front ++ ·) := by
  rw [List.mapM_append, h, ok_bind]
  cases ys.mapM f <;> rfl

/-- What holds before the first round of a counted loop, and is kept by each round that succeeds,
holds behind the last one. -/
theorem foldlM_range_induction {step : α → Nat → Except ε α} {start final : α} {count : Nat}
    {motive : Nat → α → Prop} (h : (List.range count).foldlM step start = .ok final)
    (hstart : motive 0 start)
    (hstep : ∀ index a b, index < count → step a index = .ok b → motive index a →
      motive (index + 1) b) : motive count final := by
  induction count generalizing final with
  | zero =>
    cases h
    exact hstart
  | succ count ih =>
    rw [List.range_succ, List.foldlM_append] at h
    obtain ⟨a, ha, h⟩ := bind_eq_ok.1 h
    rw [List.foldlM_cons] at h
    obtain ⟨b, hb, h⟩ := bind_eq_ok.1 h
    cases h
    have hbefore : motive count a := ih ha fun index a b hi => hstep index a b (by omega)
    exact hstep count a _ (Nat.lt_succ_self count) hb hbefore

/-- One round more of a counted loop. -/
theorem foldlM_range_succ {step : α → Nat → Except ε α} {start a b : α} {count : Nat}
    (h : (List.range count).foldlM step start = .ok a) (hstep : step a count = .ok b) :
    (List.range (count + 1)).foldlM step start = .ok b := by
  rw [List.range_succ, List.foldlM_append, h, ok_bind, List.foldlM_cons, hstep]
  rfl

/-- A counted loop fails with its first round that fails. -/
theorem foldlM_range_error {step : α → Nat → Except ε α} {start a : α} {index count : Nat} {e : ε}
    (h : (List.range index).foldlM step start = .ok a) (hstep : step a index = .error e)
    (hi : index < count) : (List.range count).foldlM step start = .error e := by
  induction count with
  | zero => exact (Nat.not_lt_zero index hi).elim
  | succ count ih =>
    rw [List.range_succ, List.foldlM_append]
    rcases Nat.lt_succ_iff_lt_or_eq.1 hi with hlt | rfl
    · rw [ih hlt, error_bind]
    · rw [h, ok_bind, List.foldlM_cons, hstep, error_bind]

/-- A counted loop of which no round changes anything changes nothing. -/
theorem foldlM_range_fixed {step : α → Nat → Except ε α} {a : α} {count : Nat}
    (h : ∀ index < count, step a index = .ok a) : (List.range count).foldlM step a = .ok a := by
  induction count with
  | zero => rfl
  | succ count ih =>
    exact foldlM_range_succ (ih fun index hi => h index (by omega)) (h count count.lt_succ_self)

end Reshape
