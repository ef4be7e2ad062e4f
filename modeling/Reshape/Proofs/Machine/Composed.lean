import Reshape.Proofs.Machine.Effect

/-!
# What single instructions are put together from

Single instructions are put together from a dozen effects, one after the other. A property that
these effects have, and that two effects one after the other have if each of them does, is one of
all single instructions: only the dozen has to be looked at.

* `Effect.Closed`, such a property as far as the stacks of data go, and `Closed.perform`, for the
  instructions that leave the cursor alone;
* `Effect.ClosedInside`, one that the effects on the cursor have as well which do not move up, and
  `ClosedInside.perform`;
* `Effect.Leaves`, that a machine is related to the one that an effect leaves, which is such a
  property for every preorder that does not mind the stacks of data: `Leaves.closed`.
-/

namespace Reshape

/-! ### Which instructions change the cursor -/

/-- The instruction moves to the parent or to the root. -/
def Instruction.movesUp : Instruction → Bool
  | moveToRoot => true
  | moveOut => true
  | reset => true
  | _ => false

/-- The instruction moves to a child. -/
def Instruction.movesInside : Instruction → Bool
  | moveIntoField .. => true
  | moveIntoIndex _ => true
  | _ => false

/-! ### Stacks -/

namespace Stack

variable {α : Type} {s s' : Stack α}

theorem pop_eq_ok {top : α} (h : s.pop = .ok (top, s')) : ∃ items, s' = { s with items } := by
  unfold pop at h
  split at h <;> cases h
  exact ⟨_, rfl⟩

theorem duplicate_eq_ok (h : s.duplicate = .ok s') : ∃ items, s' = { s with items } := by
  obtain ⟨top, -, rfl⟩ := map_eq_ok.1 h
  exact ⟨_, rfl⟩

theorem swap_eq_ok (h : s.swap = .ok s') : ∃ items, s' = { s with items } := by
  unfold swap at h
  split at h <;> cases h
  exact ⟨_, rfl⟩

theorem rotate_eq_ok (h : s.rotate = .ok s') : ∃ items, s' = { s with items } := by
  unfold rotate at h
  split at h <;> cases h
  exact ⟨_, rfl⟩

end Stack

/-! ### On values

What the functions of values fail for is their operands. -/

theorem not_isCeiling_of_joinArrays {first second : Json} {e : Failure}
    (h : joinArrays first second = .error e) : ¬ e.IsCeiling := by
  cases first <;> cases second <;> cases h <;> exact not_false

theorem not_isCeiling_of_joinObjects {first second : Json} {e : Failure}
    (h : joinObjects first second = .error e) : ¬ e.IsCeiling := by
  cases first <;> cases second <;> cases h <;> exact not_false

theorem not_isCeiling_of_compareValues {comparison : Comparison} {left right : Json} {e : Failure}
    (h : compareValues comparison left right = .error e) : ¬ e.IsCeiling := by
  unfold compareValues at h
  split at h
  · cases h
  · cases h
  · split at h <;> cases h <;> exact not_false

/-! ### Effects on the stacks -/

/-- A property of effects that goes over to one after the other, and that the effects on the stacks
of data have. No effect throws that a ceiling on what is run has been reached. -/
structure Effect.Closed (J : ∀ {α : Type}, Effect α → Prop) : Prop where
  bind : ∀ {α β : Type} {e : Effect α} {f : α → Effect β}, J e → (∀ a, J (f a)) → J (e >>= f)
  pure : ∀ {α : Type} (a : α), J (Pure.pure a : Effect α)
  throw : ∀ {α : Type} {cause : Failure}, ¬ cause.IsCeiling →
    J (MonadExcept.throw cause : Effect α)
  resolve : ∀ {f : Json → Effect Unit} (operand : Operand), (∀ value, J (f value)) →
    J (MonadState.get >>= fun m => Effect.lift (operand.resolve m) >>= f)
  current : J Effect.current
  takeElement : J Effect.takeElement
  takeValue : J Effect.takeValue
  giveElement : ∀ element, J (Effect.giveElement element)
  giveValue : ∀ value, J (Effect.giveValue value)
  arrangeElements : ∀ {f : Stack Json → Except Underflow (Stack Json)},
    (∀ {s s'}, f s = .ok s' → ∃ items, s' = { s with items }) → J (Effect.arrangeElements f)
  arrangeValues : ∀ {f : Stack Json → Except Underflow (Stack Json)},
    (∀ {s s'}, f s = .ok s' → ∃ items, s' = { s with items }) → J (Effect.arrangeValues f)

namespace Effect.Closed

variable {J : ∀ {α : Type}, Effect α → Prop} (hJ : Closed J)

include hJ

theorem lift {α : Type} {x : Except Failure α} (hx : ∀ {e}, x = .error e → ¬ e.IsCeiling) :
    J (Effect.lift x) := by
  cases x with
  | ok a => exact hJ.pure a
  | error e => exact hJ.throw (hx rfl)

theorem takeWord : J Effect.takeWord := by
  refine hJ.bind hJ.takeValue fun value => ?_
  cases value.toWord? with
  | none => exact hJ.throw not_false
  | some word => exact hJ.pure word

theorem mapWord (f : Int64 → Int64) : J (Effect.mapWord f) :=
  hJ.bind hJ.takeWord fun _ => hJ.giveValue _

theorem combineWords (f : Int64 → Int64 → Int64) : J (Effect.combineWords f) :=
  hJ.bind hJ.takeWord fun _ => hJ.bind hJ.takeWord fun _ => hJ.giveValue _

theorem combineElements {f : Json → Json → Except Failure Json}
    (hf : ∀ {first second e}, f first second = .error e → ¬ e.IsCeiling) :
    J (Effect.combineElements f) :=
  hJ.bind hJ.takeElement fun _ => hJ.bind hJ.takeElement fun _ => hJ.bind (hJ.lift hf) fun _ =>
    hJ.giveElement _

theorem currentItems (instruction : String) : J (Effect.currentItems instruction) := by
  refine hJ.bind hJ.current fun node => ?_
  cases node with
  | array items => exact hJ.pure items
  | _ => exact hJ.throw not_false

theorem storeSize : J Effect.storeSize := by
  refine hJ.bind hJ.current fun node => ?_
  cases node.length? with
  | none => exact hJ.throw not_false
  | some length => exact hJ.giveValue _

/-- Single instructions that neither move nor write. A body on the command stack is a matter of its
own. -/
theorem perform {i : Instruction} (hup : i.movesUp = false) (hinside : i.movesInside = false)
    (hwrites : i.writesBack = false) (hpush : ∀ body, i = .pushCommand body → J i.perform) :
    J i.perform := by
  cases i with
  | moveToRoot => cases hup
  | moveOut => cases hup
  | moveIntoField mode name => cases hinside
  | moveIntoIndex position => cases hinside
  | pushElement => exact hJ.bind hJ.current fun _ => hJ.giveElement _
  | popElement => cases hwrites
  | storeElement value => cases hwrites
  | duplicateElement => exact hJ.arrangeElements Stack.duplicate_eq_ok
  | swapElements => exact hJ.arrangeElements Stack.swap_eq_ok
  | rotateElements => exact hJ.arrangeElements Stack.rotate_eq_ok
  | mapElement table => exact hJ.bind hJ.takeElement fun _ => hJ.giveElement _
  | storeValue operand => exact hJ.resolve operand hJ.giveValue
  | storeSize => exact hJ.storeSize
  | popValue => exact hJ.bind hJ.takeValue fun _ => hJ.pure _
  | increment => exact hJ.mapWord _
  | decrement => exact hJ.mapWord _
  | compare comparison =>
    exact hJ.bind hJ.takeValue fun _ => hJ.bind hJ.takeValue fun _ =>
      hJ.bind (hJ.lift not_isCeiling_of_compareValues) fun _ => hJ.giveValue _
  | add => exact hJ.combineWords _
  | subtract => exact hJ.combineWords _
  | negate => exact hJ.mapWord _
  | duplicateValue => exact hJ.arrangeValues Stack.duplicate_eq_ok
  | swapValues => exact hJ.arrangeValues Stack.swap_eq_ok
  | rotateValues => exact hJ.arrangeValues Stack.rotate_eq_ok
  | elementToValue => exact hJ.bind hJ.takeElement fun _ => hJ.giveValue _
  | valueToElement => exact hJ.bind hJ.takeValue fun _ => hJ.giveElement _
  | pushCommand body => exact hpush body rfl
  | reset => cases hup
  | mergeArrays => exact hJ.combineElements not_isCeiling_of_joinArrays
  | concatArrays => exact hJ.combineElements not_isCeiling_of_joinArrays
  | filterArray predicate => cases hwrites
  | createObject => cases hwrites
  | createArray => cases hwrites
  | delete => cases hwrites
  | mergeObjects => exact hJ.combineElements not_isCeiling_of_joinObjects
  | popCommand => exact hJ.pure ()
  | loopUntil condition => exact hJ.pure ()
  | jumpIfTrue inner => exact hJ.pure ()
  | jumpIfFalse inner => exact hJ.pure ()
  | mapArray body => cases hwrites

end Effect.Closed

/-! ### Effects on the cursor -/

/-- A property of effects that goes over to one after the other, and that the effects on the stacks
of data have, and those on the cursor that do not move up. -/
structure Effect.ClosedInside (J : ∀ {α : Type}, Effect α → Prop) : Prop extends
    Effect.Closed J where
  intoField : ∀ mode name, J (Effect.moveCursor fun c => c.intoField mode name)
  intoIndex : ∀ index, J (Effect.intoIndex index)
  write : ∀ value, J (Effect.write value)
  delete : J (Effect.moveCursor Cursor.delete)

/-- Single instructions that do not move up. -/
theorem Effect.ClosedInside.perform {J : ∀ {α : Type}, Effect α → Prop} (hJ : ClosedInside J)
    {i : Instruction} (hup : i.movesUp = false)
    (hpush : ∀ body, i = .pushCommand body → J i.perform) : J i.perform := by
  cases i with
  | moveToRoot => cases hup
  | moveOut => cases hup
  | reset => cases hup
  | moveIntoField mode name => exact hJ.intoField mode name
  | moveIntoIndex position => exact hJ.resolve position hJ.intoIndex
  | popElement => exact hJ.bind hJ.takeElement hJ.write
  | storeElement value => exact hJ.write value
  | filterArray predicate => exact hJ.bind (hJ.currentItems _) fun _ => hJ.write _
  | createObject => exact hJ.write Json.emptyObject
  | createArray => exact hJ.write Json.emptyArray
  | delete => exact hJ.delete
  | mapArray body => exact hJ.pure ()
  | _ => exact hJ.toClosed.perform rfl rfl rfl hpush

/-! ### The machine that is left -/

/-- A machine is related to the one that an effect leaves, whether it fails or not. -/
def Effect.Leaves (R : Machine → Machine → Prop) {α : Type} (e : Effect α) : Prop :=
  ∀ m, R m (e.left m)

namespace Effect.Leaves

variable {R : Machine → Machine → Prop} {α β : Type}

theorem bind (trans : ∀ m m₁ m₂, R m m₁ → R m₁ m₂ → R m m₂) {e : Effect α} {f : α → Effect β}
    (he : Leaves R e) (hf : ∀ a, Leaves R (f a)) : Leaves R (e >>= f) := by
  intro m
  have hfirst := he m
  rw [left_bind]
  unfold left at hfirst
  cases hr : e.run m with
  | ok a m₁ =>
    rw [hr] at hfirst
    exact trans _ _ _ hfirst (hf a m₁)
  | error cause m₁ =>
    rw [hr] at hfirst
    exact hfirst

section Refl

variable (refl : ∀ m, R m m)

include refl

theorem get : Leaves R (MonadState.get : Effect Machine) := refl

theorem lift (x : Except Failure α) : Leaves R (Effect.lift x) := by
  intro m
  cases x <;> exact refl m

theorem takeElement
    (elements : ∀ m items, R m { m with elements := { m.elements with items } }) :
    Leaves R Effect.takeElement := by
  intro m
  simp only [left, run_takeElement]
  cases h : m.elements.pop with
  | error e => exact refl m
  | ok popped =>
    obtain ⟨items, hitems⟩ := Stack.pop_eq_ok h
    simp only [hitems]
    exact elements m items

theorem takeValue (values : ∀ m items, R m { m with values := { m.values with items } }) :
    Leaves R Effect.takeValue := by
  intro m
  simp only [left, run_takeValue]
  cases h : m.values.pop with
  | error e => exact refl m
  | ok popped =>
    obtain ⟨items, hitems⟩ := Stack.pop_eq_ok h
    simp only [hitems]
    exact values m items

theorem arrangeElements (elements : ∀ m items, R m { m with elements := { m.elements with items } })
    {f : Stack Json → Except Underflow (Stack Json)}
    (hf : ∀ {s s'}, f s = .ok s' → ∃ items, s' = { s with items }) :
    Leaves R (Effect.arrangeElements f) := by
  intro m
  simp only [left, run_arrangeElements]
  cases h : f m.elements with
  | error e => exact refl m
  | ok arranged =>
    obtain ⟨items, rfl⟩ := hf h
    exact elements m items

theorem arrangeValues (values : ∀ m items, R m { m with values := { m.values with items } })
    {f : Stack Json → Except Underflow (Stack Json)}
    (hf : ∀ {s s'}, f s = .ok s' → ∃ items, s' = { s with items }) :
    Leaves R (Effect.arrangeValues f) := by
  intro m
  simp only [left, run_arrangeValues]
  cases h : f m.values with
  | error e => exact refl m
  | ok arranged =>
    obtain ⟨items, rfl⟩ := hf h
    exact values m items

theorem moveCursor {f : Cursor → Except CursorError Cursor}
    (cursor : ∀ {m : Machine} {c}, f m.cursor = .ok c → R m { m with cursor := c }) :
    Leaves R (Effect.moveCursor f) := by
  intro m
  simp only [left, run_moveCursor]
  cases h : f m.cursor with
  | error e => exact refl m
  | ok c => exact cursor h

theorem intoIndex
    (cursor : ∀ {m : Machine} {limit position c}, m.cursor.intoIndex limit position = .ok c →
      R m { m with cursor := c })
    (index : Json) : Leaves R (Effect.intoIndex index) := by
  intro m
  cases hi : index.toIndex? with
  | none =>
    unfold Effect.intoIndex
    rw [hi]
    cases index <;> exact refl m
  | some position =>
    simp only [left, run_intoIndex hi]
    cases hc : m.cursor.intoIndex m.limits.arrayPadding position with
    | ok c => exact cursor hc
    | error e => cases e <;> exact refl m

/-- A preorder of machines that does not mind the stacks of data. -/
theorem closed (trans : ∀ m m₁ m₂, R m m₁ → R m₁ m₂ → R m m₂)
    (elements : ∀ m items, R m { m with elements := { m.elements with items } })
    (values : ∀ m items, R m { m with values := { m.values with items } }) :
    Closed (Leaves R) where
  bind := bind trans
  pure _ := refl
  throw _ := refl
  resolve operand hf := bind trans (get refl) fun m => bind trans (lift refl (operand.resolve m)) hf
  current := bind trans (get refl) fun _ => lift refl _
  takeElement := takeElement refl elements
  takeValue := takeValue refl values
  giveElement element m := elements m (element :: m.elements.items)
  giveValue value m := values m (value :: m.values.items)
  arrangeElements := arrangeElements refl elements
  arrangeValues := arrangeValues refl values

end Refl

end Effect.Leaves

end Reshape
