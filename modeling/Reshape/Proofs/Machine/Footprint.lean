import Reshape.Proofs.Machine.Composed

/-!
# What single instructions leave alone

An instruction that runs no others works on the cursor and on the two stacks of data. Two of them
do more: one pushes a body onto the command stack, and a reset clears everything.

* `Effect.Local`, an effect on the cursor and the stacks of data, and `Local.closedInside`, that the
  effects which instructions are put together from are such;
* `Instruction.perform_local` and `Instruction.perform_frame`, for single instructions;
* `loopLevel_perform`, what follows for the loops.
-/

namespace Reshape

/-- An effect changes nothing of a machine but the cursor, the elements and the values, whether it
fails or not. -/
def Effect.Local {α : Type} (e : Effect α) : Prop :=
  ∀ m : Machine, ∃ cursor elements values, e.left m = { m with cursor, elements, values }

/-- Two machines differ in nothing but the cursor, the elements and the values. -/
def Machine.SameElsewhere (m m' : Machine) : Prop :=
  ∃ cursor elements values, m' = { m with cursor, elements, values }

namespace Machine.SameElsewhere

theorem refl (m : Machine) : m.SameElsewhere m := ⟨_, _, _, rfl⟩

theorem trans {m m₁ m₂ : Machine} (h : m.SameElsewhere m₁) (h' : m₁.SameElsewhere m₂) :
    m.SameElsewhere m₂ := by
  obtain ⟨_, _, _, rfl⟩ := h
  obtain ⟨_, _, _, rfl⟩ := h'
  exact ⟨_, _, _, rfl⟩

theorem cursor (m : Machine) (cursor : Cursor) : m.SameElsewhere { m with cursor } :=
  ⟨cursor, m.elements, m.values, rfl⟩

end Machine.SameElsewhere

namespace Effect.Local

open Machine

theorem moveCursor (f : Cursor → Except CursorError Cursor) : Local (Effect.moveCursor f) :=
  Leaves.moveCursor SameElsewhere.refl fun _ => .cursor _ _

theorem closedInside : ClosedInside Local where
  toClosed := Leaves.closed SameElsewhere.refl (fun _ _ _ => .trans)
    (fun m items => ⟨m.cursor, { m.elements with items }, m.values, rfl⟩)
    fun m items => ⟨m.cursor, m.elements, { m.values with items }, rfl⟩
  intoField _ _ := moveCursor _
  intoIndex := Leaves.intoIndex SameElsewhere.refl fun _ => .cursor _ _
  write _ := moveCursor _
  delete := moveCursor _

theorem takeValue : Local Effect.takeValue := closedInside.takeValue

theorem write (value : Json) : Local (Effect.write value) := closedInside.write value

end Effect.Local

namespace Instruction

/-- A single instruction that neither pushes a body nor resets the machine is local. -/
theorem perform_local {i : Instruction} (hpush : ∀ body, i ≠ .pushCommand body)
    (hreset : i ≠ .reset) : Effect.Local i.perform := by
  cases i with
  | moveToRoot => exact fun m => ⟨m.cursor.toRoot, m.elements, m.values, rfl⟩
  | moveOut => exact fun m => ⟨m.cursor.moveOut, m.elements, m.values, rfl⟩
  | reset => exact (hreset rfl).elim
  | _ => exact Effect.Local.closedInside.perform rfl fun body hbody => (hpush body hbody).elim

/-- What a machine counts, is allowed and reports is no matter of single instructions. -/
theorem perform_frame (i : Instruction) (m : Machine) :
    ∃ cursor elements values commands loopLevel loopCounters,
      i.perform.left m =
        { m with cursor, elements, values, commands, loopLevel, loopCounters } := by
  by_cases hlocal : (∀ body, i ≠ .pushCommand body) ∧ i ≠ .reset
  · obtain ⟨_, _, _, hleft⟩ := perform_local hlocal.1 hlocal.2 m
    exact ⟨_, _, _, _, _, _, hleft⟩
  · cases i with
    | pushCommand body => exact ⟨_, _, _, m.commands.push body, _, _, rfl⟩
    | reset => exact ⟨_, _, _, m.commands.clear, 0, [], rfl⟩
    | _ => exact (hlocal ⟨nofun, nofun⟩).elim

/-- Only a reset leaves the loops. -/
theorem loopLevel_perform {i : Instruction} (hreset : i ≠ .reset) (m : Machine) :
    (i.perform.left m).loopLevel = m.loopLevel := by
  by_cases hpush : ∃ body, i = .pushCommand body
  · obtain ⟨body, rfl⟩ := hpush
    rfl
  · obtain ⟨_, _, _, hl⟩ := perform_local (fun body hb => hpush ⟨body, hb⟩) hreset m
    rw [hl]

end Instruction

end Reshape
