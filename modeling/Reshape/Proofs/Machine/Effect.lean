import Reshape.Machine.Run
import Reshape.Proofs.Except

/-!
# Running effects

What each effect that instructions are made of does to a machine, and with which error it fails.

* `Failure.IsCeiling`, the errors that none of them fails with;
* `run_lift`, `run_moveCursor`, `run_takeElement` and the other equations, one for each effect;
* `Effect.left`, the machine that an effect leaves, whether it fails or not, and `left_bind`.
-/

namespace Reshape

/-- A ceiling on what a run may do. -/
def Failure.IsCeiling : Failure → Prop
  | .operationLimitExceeded _ => True
  | .loopLimitExceeded _ _ => True
  | _ => False

namespace Effect

variable {α β : Type}

theorem run_lift (x : Except Failure α) (m : Machine) :
    (lift x).run m = match x with
      | .ok a => .ok a m
      | .error e => .error e m := by
  cases x <;> rfl

theorem run_bind_of_ok {e : Effect α} {m m' : Machine} {a : α} (h : e.run m = .ok a m')
    (f : α → Effect β) : (e >>= f).run m = (f a).run m' := by
  rw [EStateM.run_bind, h]

theorem run_moveCursor (f : Cursor → Except CursorError Cursor) (m : Machine) :
    (moveCursor f).run m = match f m.cursor with
      | .ok cursor => .ok () { m with cursor }
      | .error e => .error (.navigation e) m := by
  cases h : f m.cursor <;> simp [moveCursor, run_lift, h]

theorem run_current (m : Machine) :
    current.run m = match m.cursor.current with
      | .ok node => .ok node m
      | .error e => .error (.navigation e) m := by
  cases h : m.cursor.current <;> simp [current, run_lift, h]

theorem run_takeElement (m : Machine) :
    takeElement.run m = match m.elements.pop with
      | .ok (element, elements) => .ok element { m with elements }
      | .error e => .error (.stackUnderflow e) m := by
  cases h : m.elements.pop with
  | ok popped =>
    simp only [takeElement, EStateM.run_bind, EStateM.run_get, run_lift, h, mapError_ok]
    rfl
  | error e => simp [takeElement, run_lift, h]

theorem run_takeValue (m : Machine) :
    takeValue.run m = match m.values.pop with
      | .ok (value, values) => .ok value { m with values }
      | .error e => .error (.stackUnderflow e) m := by
  cases h : m.values.pop with
  | ok popped =>
    simp only [takeValue, EStateM.run_bind, EStateM.run_get, run_lift, h, mapError_ok]
    rfl
  | error e => simp [takeValue, run_lift, h]

theorem run_giveElement (element : Json) (m : Machine) :
    (giveElement element).run m = .ok () { m with elements := m.elements.push element } := rfl

theorem run_giveValue (value : Json) (m : Machine) :
    (giveValue value).run m = .ok () { m with values := m.values.push value } := rfl

theorem run_arrangeElements (f : Stack Json → Except Underflow (Stack Json)) (m : Machine) :
    (arrangeElements f).run m = match f m.elements with
      | .ok elements => .ok () { m with elements }
      | .error e => .error (.stackUnderflow e) m := by
  cases h : f m.elements <;> simp [arrangeElements, run_lift, h]

theorem run_arrangeValues (f : Stack Json → Except Underflow (Stack Json)) (m : Machine) :
    (arrangeValues f).run m = match f m.values with
      | .ok values => .ok () { m with values }
      | .error e => .error (.stackUnderflow e) m := by
  cases h : f m.values <;> simp [arrangeValues, run_lift, h]

theorem run_intoIndex {index : Json} {position : Nat} (h : index.toIndex? = some position)
    (m : Machine) :
    (intoIndex index).run m = match m.cursor.intoIndex m.limits.arrayPadding position with
      | .ok cursor => .ok () { m with cursor }
      | .error (.cursor e) => .error (.navigation e) m
      | .error (.padding position length limit) =>
        .error (.paddingLimitExceeded position length limit) m := by
  unfold intoIndex
  rw [h]
  cases hc : m.cursor.intoIndex m.limits.arrayPadding position with
  | ok cursor => simp [hc]
  | error e => cases e <;> simp [hc]

/-- An index below zero. -/
theorem run_intoIndex_of_none {number : Number} (h : (Json.number number).toIndex? = none)
    (m : Machine) :
    (intoIndex (.number number)).run m =
      .error (.navigation (.negativeIndex (.number number))) m := by
  unfold intoIndex
  rw [h]
  rfl

/-! ### The machine that is left -/

/-- The machine that an effect leaves. -/
def left (e : Effect α) (m : Machine) : Machine :=
  match e.run m with
  | .ok _ m => m
  | .error _ m => m

theorem machine_ofEffect (e : Effect Unit) (m : Machine) :
    (Outcome.ofEffect e m).machine = e.left m := by
  unfold Outcome.ofEffect left
  cases e.run m <;> rfl

theorem left_bind (e : Effect α) (f : α → Effect β) (m : Machine) :
    (e >>= f).left m = match e.run m with
      | .ok a m => (f a).left m
      | .error _ m => m := by
  simp only [left, EStateM.run_bind]
  cases e.run m <;> rfl

end Effect

end Reshape
