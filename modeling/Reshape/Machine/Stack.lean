/-!
# Named stacks

A stack has a name, by which an underflow is reported, and its items, the top first.

* `Underflow` and its message;
* `Stack`, with `push`, `pop`, `peek`, `peekAt`, `swap`, `rotate`, `duplicate`, `clear`, `topItems`;
* what each operation does to the items, and when the failing ones succeed.
-/

namespace Reshape

/-- A request below the bottom of a stack. -/
structure Underflow where
  stack : String
  depth : Nat
  length : Nat
  deriving DecidableEq

/-- The message of an underflow. -/
def Underflow.message (e : Underflow) : String :=
  e.stack ++ " stack underflow: depth " ++ toString e.depth ++ " requested, " ++
    toString e.length ++ " available"

/-- A stack with a name. -/
structure Stack (α : Type) where
  name : String
  items : List α

namespace Stack

variable {α : Type}

/-- The empty stack of a name. -/
def empty (name : String) : Stack α := ⟨name, []⟩

/-- The number of items. -/
def length (s : Stack α) : Nat := s.items.length

/-- Whether there is no item. -/
def isEmpty (s : Stack α) : Bool := s.items.isEmpty

/-- The items from the bottom to the top. -/
def toList (s : Stack α) : List α := s.items.reverse

/-- The report that a stack has nothing at a depth. -/
def underflow (s : Stack α) (depth : Nat) : Underflow := ⟨s.name, depth, s.length⟩

/-- A stack with one more item on top. -/
def push (s : Stack α) (item : α) : Stack α := { s with items := item :: s.items }

/-- The top item, and the stack without it. -/
def pop (s : Stack α) : Except Underflow (α × Stack α) :=
  match s.items with
  | top :: rest => .ok (top, { s with items := rest })
  | [] => .error (s.underflow 0)

/-- The item at a depth; the top is at depth 0. -/
def peekAt (s : Stack α) (depth : Nat) : Except Underflow α :=
  match s.items[depth]? with
  | some item => .ok item
  | none => .error (s.underflow depth)

/-- The top item. -/
def peek (s : Stack α) : Except Underflow α := s.peekAt 0

/-- Exchange the two top items. -/
def swap (s : Stack α) : Except Underflow (Stack α) :=
  match s.items with
  | top :: below :: rest => .ok { s with items := below :: top :: rest }
  | _ => .error (s.underflow 1)

/-- Bring the third item to the top. -/
def rotate (s : Stack α) : Except Underflow (Stack α) :=
  match s.items with
  | top :: middle :: bottom :: rest => .ok { s with items := bottom :: top :: middle :: rest }
  | _ => .error (s.underflow 2)

/-- Push the top item once more. -/
def duplicate (s : Stack α) : Except Underflow (Stack α) := s.peek.map s.push

/-- A stack without items. -/
def clear (s : Stack α) : Stack α := { s with items := [] }

/-- The `count` items at the top, the top first, or all if there are fewer. -/
def topItems (s : Stack α) (count : Nat) : List α := s.items.take count

/-! ### The items after each operation -/

@[simp] theorem items_push (s : Stack α) (item : α) : (s.push item).items = item :: s.items := rfl

@[simp] theorem items_clear (s : Stack α) : s.clear.items = [] := rfl

theorem pop_push (s : Stack α) (item : α) : (s.push item).pop = .ok (item, s) := rfl

theorem peek_push (s : Stack α) (item : α) : (s.push item).peek = .ok item := rfl

theorem mem_of_peek {s : Stack α} {item : α} (h : s.peek = .ok item) : item ∈ s.items := by
  unfold peek peekAt at h
  split at h
  · rename_i hget
    cases h
    exact List.mem_of_getElem? hget
  · cases h

theorem pop_eq_error_iff (s : Stack α) {e : Underflow} :
    s.pop = .error e ↔ s.items = [] ∧ e = s.underflow 0 := by
  unfold pop
  split <;> rename_i h <;> simp [h, eq_comm]

end Stack

end Reshape
