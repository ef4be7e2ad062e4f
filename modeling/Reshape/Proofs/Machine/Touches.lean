import Mathlib.Logic.Relation
import Reshape.Proofs.Machine.Composed
import Reshape.Proofs.Machine.Law

/-!
# What single instructions are made of

Whatever a single instruction does to a machine, it does by a few elementary changes: operations of
the cursor, other items on the two stacks of data, a push onto the command stack, or a reset. What
each of them keeps, every instruction keeps, whether it fails or not.

* `Cursor.Operates` and `Machine.Touches`, the elementary changes;
* `Effect.Made`, an effect that is made of them, and `Instruction.perform_made`;
* `Machine.Named`, that the stacks have the names by which underflows are reported, which every run
  keeps: `Machine.Named.of_run`.
-/

namespace Reshape

/-- One operation takes a cursor to another. -/
inductive Cursor.Operates : Cursor → Cursor → Prop
  | toRoot (c : Cursor) : Operates c c.toRoot
  | moveOut (c : Cursor) : Operates c c.moveOut
  | intoField {c c' : Cursor} {mode : FieldMode} {name : String}
      (h : c.intoField mode name = .ok c') : Operates c c'
  | intoIndex {c c' : Cursor} {limit position : Nat}
      (h : c.intoIndex limit position = .ok c') : Operates c c'
  | write {c c' : Cursor} {value : Json} (h : c.write value = .ok c') : Operates c c'
  | delete {c c' : Cursor} (h : c.delete = .ok c') : Operates c c'

/-- An elementary change of a machine. -/
inductive Machine.Touches : Machine → Machine → Prop
  | cursor {m : Machine} {cursor : Cursor} (h : m.cursor.Operates cursor) :
      Touches m { m with cursor }
  | elements (m : Machine) (items : List Json) :
      Touches m { m with elements := { m.elements with items } }
  | values (m : Machine) (items : List Json) :
      Touches m { m with values := { m.values with items } }
  | pushCommand (m : Machine) (body : Program) :
      Touches m { m with commands := m.commands.push body }
  | reset (m : Machine) : Touches m (Effect.reset.left m)

/-! ### Effects -/

/-- What an effect does is made of elementary changes, whether it fails or not. -/
def Effect.Made {α : Type} (e : Effect α) : Prop :=
  ∀ m : Machine, Relation.ReflTransGen Machine.Touches m (e.left m)

namespace Effect.Made

open Relation

theorem moveCursor {f : Cursor → Except CursorError Cursor}
    (hf : ∀ {c c'}, f c = .ok c' → c.Operates c') : Made (Effect.moveCursor f) :=
  Leaves.moveCursor (fun _ => .refl) fun h => .single (.cursor (hf h))

theorem closedInside : ClosedInside Made where
  toClosed := Leaves.closed (fun _ => .refl) (fun _ _ _ => .trans)
    (fun m items => .single (.elements m items)) fun m items => .single (.values m items)
  intoField _ _ := moveCursor .intoField
  intoIndex := Leaves.intoIndex (fun _ => .refl) fun h => .single (.cursor (.intoIndex h))
  write _ := moveCursor .write
  delete := moveCursor .delete

end Effect.Made

/-- **What a single instruction does is made of elementary changes.** -/
theorem Instruction.perform_made (i : Instruction) : Effect.Made i.perform := by
  cases i with
  | moveToRoot => exact fun m => .single (.cursor (.toRoot m.cursor))
  | moveOut => exact fun m => .single (.cursor (.moveOut m.cursor))
  | pushCommand body => exact fun m => .single (.pushCommand m body)
  | reset => exact fun m => .single (.reset m)
  | _ => exact Effect.Made.closedInside.perform rfl nofun

/-! ### The names of the stacks -/

/-- The stacks of a cursor have their names. -/
structure Cursor.Named (c : Cursor) : Prop where
  paths : c.paths.name = "path"
  states : c.states.name = "state"

/-- The stacks of a machine have their names. -/
structure Machine.Named (m : Machine) : Prop where
  cursor : m.cursor.Named
  elements : m.elements.name = "element"
  values : m.values.name = "value"
  commands : m.commands.name = "command"

variable {c c' : Cursor} {m m' : Machine}

namespace Cursor.Named

/-- Only the stacks count. -/
theorem of_same (h : c.Named) (hpaths : c'.paths.name = c.paths.name)
    (hstates : c'.states.name = c.states.name) : c'.Named :=
  ⟨hpaths.trans h.paths, hstates.trans h.states⟩

theorem moveOut (h : c.Named) : c.moveOut.Named := by
  unfold Cursor.moveOut
  split
  · exact h.of_same rfl rfl
  · exact h

theorem modify {ε : Type} {f : Json → Except ε Json} {missing : ε} (h : c.Named)
    (ho : c.modify f missing = .ok c') : c'.Named := by
  unfold Cursor.modify at ho
  split at ho
  · cases ho
  · obtain ⟨new, -, rfl⟩ := map_eq_ok.1 ho
    exact h.of_same rfl rfl

theorem modifyParent {above : List Locator} {f : Json → Except CursorError Json} (h : c.Named)
    (ho : c.modifyParent above f = .ok c') : c'.Named := by
  unfold Cursor.modifyParent at ho
  simp only at ho
  split at ho
  · cases ho
  · obtain ⟨new, -, rfl⟩ := map_eq_ok.1 ho
    exact h.of_same rfl rfl

theorem operates (h : c.Named) (ho : c.Operates c') : c'.Named := by
  cases ho with
  | toRoot => exact h.of_same rfl rfl
  | moveOut => exact h.moveOut
  | intoField ho =>
    obtain ⟨inner, hinner, rfl⟩ := map_eq_ok.1 ho
    exact (h.modify hinner).of_same rfl rfl
  | intoIndex ho =>
    obtain ⟨inner, hinner, rfl⟩ := map_eq_ok.1 ho
    exact (h.modify hinner).of_same rfl rfl
  | write ho =>
    unfold Cursor.write at ho
    split at ho
    · cases ho
    · split at ho
      · cases ho
        exact h.of_same rfl rfl
      · exact h.modifyParent ho
  | delete ho =>
    unfold Cursor.delete at ho
    split at ho
    · cases ho
    · split at ho
      · cases ho
      · obtain ⟨inner, hinner, rfl⟩ := map_eq_ok.1 ho
        exact (h.modifyParent hinner).of_same rfl rfl

end Cursor.Named

theorem Machine.named_start (document : Json) (limits : Limits) (trace : Bool) :
    (Machine.start document limits trace).Named := ⟨⟨rfl, rfl⟩, rfl, rfl, rfl⟩

namespace Machine.Named

/-- Only the cursor and the stacks count. -/
theorem of_same (h : m.Named) (hcursor : m'.cursor = m.cursor)
    (helements : m'.elements.name = m.elements.name) (hvalues : m'.values.name = m.values.name)
    (hcommands : m'.commands.name = m.commands.name) : m'.Named :=
  ⟨hcursor ▸ h.cursor, helements.trans h.elements, hvalues.trans h.values,
    hcommands.trans h.commands⟩

theorem touches (h : m.Named) (ht : m.Touches m') : m'.Named := by
  cases ht with
  | cursor ho => exact ⟨h.cursor.operates ho, h.elements, h.values, h.commands⟩
  | elements => exact h.of_same rfl rfl rfl rfl
  | values => exact h.of_same rfl rfl rfl rfl
  | pushCommand => exact h.of_same rfl rfl rfl rfl
  | reset => exact ⟨h.cursor.operates (.toRoot _), h.elements, h.values, h.commands⟩

theorem left {α : Type} {e : Effect α} (he : e.Made) (h : m.Named) : (e.left m).Named := by
  have hreach := he m
  generalize e.left m = left at hreach
  induction hreach with
  | refl => exact h
  | tail _ htouch ih => exact ih.touches htouch

/-- Names are no matter of bookkeeping. -/
theorem law : Outcome.Law fun m o => m.Named → o.machine.Named where
  refl _ h := h
  bare _ _ h := h
  trans h ho hm := ho (h hm)
  announce m i h := by
    obtain ⟨log, hannounce⟩ := m.announce_eq i
    show (m.announce i).Named
    rw [hannounce]
    exact h.of_same rfl rfl rfl rfl
  perform i m h := by
    rw [Effect.machine_ofEffect]
    exact h.left i.perform_made
  complete m i h := by
    obtain ⟨log, -, hcomplete⟩ := m.complete_eq i
    rw [hcomplete]
    split <;> exact h.of_same rfl rfl rfl rfl
  fail _ h := h
  setCounter _ _ _ h := h.of_same rfl rfl rfl rfl
  loop {m o} h hm := by
    have ho : o.machine.Named := h (hm.of_same rfl rfl rfl rfl)
    cases o <;> exact ho.of_same rfl rfl rfl rfl
  item {m index item o} _ hm := by cases o <;> exact hm.of_same rfl rfl rfl rfl

/-- **Every run keeps the names of the stacks.** -/
theorem of_run {fuel : Nat} {program : Program} {o : Outcome} (h : m.Named)
    (ho : Machine.run fuel program m = some o) : o.machine.Named := law.run fuel program m o ho h

end Machine.Named

end Reshape
