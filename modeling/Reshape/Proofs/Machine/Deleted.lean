import Reshape.Proofs.Json.Size
import Reshape.Proofs.Machine.Allowed
import Reshape.Proofs.Machine.Breadcrumbs
import Reshape.Proofs.Machine.CleanUp
import Reshape.Proofs.Number.Exact

/-!
# A deleted node

Deleting the current node takes its slot out of the parent and leaves the cursor detached. From then
on the document stays as it is, whatever programs are run, until one of them moves up: the other
instructions that use the node fail. `delete_freezes` says so of every machine that can be reached.

* `Json.Drops`, a container and the same one without the child at a locator;
* `Instruction.usesNode`, the instructions that need the current node, and
  `Instruction.FailsEarly`, those that may fail before they get to it;
* `Machine.carryOut_of_detached`, what they do on a detached cursor;
* `Cursor.steady_of_detached`, a detached cursor stays as it is as long as nothing moves up.
-/

namespace Reshape

/-- The second container is the first one without the child at a locator; what is around the child
keeps its order, and the items behind it move up by one. -/
inductive Json.Drops : Locator → Json → Json → Prop
  | field {name : String} {child : Json} {before after : Entries String Json}
      (hfirst : name ∉ before.keys) :
      Drops (.field name) (.object (before ++ (name, child) :: after)) (.object (before ++ after))
  | item {child : Json} {before after : List Json} :
      Drops (.index before.length) (.array (before ++ child :: after)) (.array (before ++ after))

/-- To take out a key that is there closes the gap. -/
theorem Entries.erase_of_get? {name : String} {child : Json} {fields : Entries String Json}
    (h : fields.get? name = some child) :
    ∃ before after : Entries String Json, name ∉ before.keys ∧
      fields = before ++ (name, child) :: after ∧ fields.erase name = before ++ after := by
  induction fields with
  | nil => cases h
  | cons entry rest ih =>
    obtain ⟨key, value⟩ := entry
    by_cases hkey : key = name
    · subst hkey
      simp only [get?, if_true, Option.some.injEq] at h
      subst h
      exact ⟨[], rest, List.not_mem_nil, rfl, by simp [erase]⟩
    · rw [get?, if_neg hkey] at h
      obtain ⟨before, after, hfirst, rfl, herase⟩ := ih h
      refine ⟨(key, value) :: before, after, ?_, rfl, by simp [erase, hkey, herase]⟩
      simp only [keys, List.map_cons, List.mem_cons, not_or]
      exact ⟨Ne.symm hkey, hfirst⟩

/-- Taking a child out of its container drops it. -/
theorem Cursor.withoutChild_drops {locator : Locator} {node child new : Json}
    (h : node.child? locator = some child) (hnew : withoutChild locator node = .ok new) :
    Json.Drops locator node new := by
  cases locator with
  | field name =>
    cases node with
    | object fields =>
      obtain ⟨before, after, hfirst, rfl, herase⟩ := Entries.erase_of_get? h
      cases hnew
      rw [herase]
      exact .field hfirst
    | _ => cases h
  | index position =>
    cases node with
    | array items =>
      obtain ⟨hposition, hchild⟩ := List.getElem?_eq_some_iff.1 h
      simp only [withoutChild, if_pos hposition, Except.ok.injEq] at hnew
      subst hnew
      have hitems : items = items.take position ++ child :: items.drop (position + 1) := by
        rw [← hchild, List.cons_getElem_drop_succ, List.take_append_drop]
      have hlength : (items.take position).length = position :=
        List.length_take_of_le (Nat.le_of_lt hposition)
      have hdrops := @Json.Drops.item child (items.take position) (items.drop (position + 1))
      rwa [← hitems, hlength, ← List.eraseIdx_eq_take_drop_succ] at hdrops
    | _ => cases h

/-! ### Detached cursors -/

namespace Cursor

variable {c : Cursor}

theorem current?_of_detached (h : c.detached = true) : c.current? = none := by
  simp [current?, h]

theorem current_of_detached (h : c.detached = true) : c.current = .error .detached := by
  simp [current, current?_of_detached h]

theorem modify_of_detached {ε : Type} (h : c.detached = true) (f : Json → Except ε Json)
    (missing : ε) : c.modify f missing = .error missing := by
  simp [modify, current?_of_detached h]

theorem intoField_of_detached (h : c.detached = true) (mode : FieldMode) (name : String) :
    c.intoField mode name = .error .detached := by
  rw [intoField, modify_of_detached h]
  rfl

theorem intoIndex_of_detached (h : c.detached = true) (limit position : Nat) :
    c.intoIndex limit position = .error (.cursor .detached) := by
  rw [intoIndex, modify_of_detached h]
  rfl

/-- Nothing but moving up changes a detached cursor. -/
theorem steady_of_detached (h : c.detached = true) : Steady (· = c) where
  intoField := by
    rintro _ c' mode name rfl ho
    rw [intoField_of_detached h] at ho
    cases ho
  intoIndex := by
    rintro _ c' limit position rfl ho
    rw [intoIndex_of_detached h] at ho
    cases ho
  write := by
    rintro _ c' value rfl ho
    rw [write_of_detached h] at ho
    cases ho
  delete := by
    rintro _ c' rfl ho
    rw [delete_of_detached h] at ho
    cases ho

end Cursor

/-! ### Instructions that use the node -/

namespace Instruction

/-- The instruction reads or writes the current node, moves to a child of it or deletes it. -/
def usesNode : Instruction → Bool
  | moveIntoField .. => true
  | moveIntoIndex _ => true
  | pushElement => true
  | popElement => true
  | storeElement _ => true
  | storeValue (.field _) => true
  | storeValue .current => true
  | storeSize => true
  | filterArray _ => true
  | mapArray _ => true
  | createObject => true
  | createArray => true
  | delete => true
  | _ => false

/-- The instruction fails for its stack or its operand, whatever the node is. -/
inductive FailsEarly (m : Machine) : Instruction → Failure → Prop
  | popElement {e : Underflow} (h : m.elements.pop = .error e) :
      FailsEarly m .popElement (.stackUnderflow e)
  | missingValue {depth : Nat} {e : Underflow} (h : m.values.peekAt depth = .error e) :
      FailsEarly m (.moveIntoIndex (.value depth)) (.stackUnderflow e)
  | negativeIndex {position : Operand} {number : Number}
      (h : position.resolve m = .ok (.number number))
      (hnone : (Json.number number).toIndex? = none) :
      FailsEarly m (.moveIntoIndex position) (.navigation (.negativeIndex (.number number)))
  | noNumber {position : Operand} {value : Json} (h : position.resolve m = .ok value)
      (hkind : value.kind ≠ .number) :
      FailsEarly m (.moveIntoIndex position) (.typeMismatch .number value.kind)

end Instruction

/-! ### On a detached cursor -/

namespace Effect

variable {m : Machine}

theorem run_bind_of_error {α β : Type} {e : Effect α} {m' : Machine} {cause : Failure}
    (h : e.run m = .error cause m') (f : α → Effect β) : (e >>= f).run m = .error cause m' := by
  rw [EStateM.run_bind, h]

theorem run_write_of_detached (h : m.cursor.detached = true) (value : Json) :
    (write value).run m = .error (.navigation .detached) m := by
  rw [write, run_moveCursor, Cursor.write_of_detached h]

theorem run_current_of_detached (h : m.cursor.detached = true) :
    current.run m = .error (.navigation .detached) m := by
  rw [run_current, Cursor.current_of_detached h]

theorem run_currentItems_of_detached (h : m.cursor.detached = true) (instruction : String) :
    (currentItems instruction).run m = .error (.navigation .detached) m :=
  run_bind_of_error (run_current_of_detached h) _

theorem run_intoIndex_of_detached (h : m.cursor.detached = true) {position : Operand}
    {index : Json} (hindex : position.resolve m = .ok index) :
    ∃ cause, (intoIndex index).run m = .error cause m ∧
      (cause = .navigation .detached ∨
        Instruction.FailsEarly m (.moveIntoIndex position) cause) := by
  cases hposition : index.toIndex? with
  | some position =>
    refine ⟨_, ?_, .inl rfl⟩
    rw [run_intoIndex hposition, Cursor.intoIndex_of_detached h]
  | none =>
    by_cases hnumber : ∃ number, index = .number number
    · obtain ⟨number, rfl⟩ := hnumber
      exact ⟨_, run_intoIndex_of_none hposition m, .inr (.negativeIndex hindex hposition)⟩
    · refine ⟨.typeMismatch .number index.kind, ?_, .inr (.noNumber hindex ?_)⟩
      · unfold intoIndex
        rw [hposition]
        cases index <;> first | exact (hnumber ⟨_, rfl⟩).elim | rfl
      · intro hkind
        cases index <;> first | exact hnumber ⟨_, rfl⟩ | cases hkind

end Effect

namespace Instruction

variable {m : Machine} {i : Instruction}

/-- Of the instructions that use the node, one runs a body. -/
theorem isSingle_of_usesNode (hi : i.usesNode = true) (hmap : ∀ body, i ≠ .mapArray body) :
    i.isSingle = true := by
  cases i <;> first | rfl | exact (hmap _ rfl).elim | cases hi

/-- A single instruction that uses the node fails. -/
theorem perform_of_detached (h : m.cursor.detached = true) (hi : i.usesNode = true)
    (hsingle : i.isSingle = true) :
    ∃ cause m', i.perform.run m = .error cause m' ∧
      (cause = .navigation .detached ∨ i.FailsEarly m cause) := by
  cases i with
  | moveIntoField mode name =>
    refine ⟨_, m, ?_, .inl rfl⟩
    rw [perform, Effect.run_moveCursor, Cursor.intoField_of_detached h]
  | moveIntoIndex position =>
    -- What the operand is read from may be missing, as well as the node.
    show ∃ cause m', (Effect.lift (position.resolve m) >>= Effect.intoIndex).run m =
      .error cause m' ∧ _
    cases hindex : position.resolve m with
    | ok index =>
      obtain ⟨cause, hcause, hearly⟩ := Effect.run_intoIndex_of_detached h hindex
      exact ⟨cause, m, hcause, hearly⟩
    | error cause =>
      refine ⟨cause, m, rfl, ?_⟩
      cases position with
      | given v => cases hindex
      | field name =>
        rw [Operand.resolve, Cursor.current_of_detached h] at hindex
        cases hindex
        exact .inl rfl
      | value depth =>
        cases hvalue : m.values.peekAt depth with
        | ok value => rw [Operand.resolve, hvalue] at hindex; cases hindex
        | error e =>
          rw [Operand.resolve, hvalue] at hindex
          cases hindex
          exact .inr (.missingValue hvalue)
      | current =>
        rw [Operand.resolve, Cursor.current_of_detached h] at hindex
        cases hindex
        exact .inl rfl
  | pushElement =>
    exact ⟨_, m, Effect.run_bind_of_error (Effect.run_current_of_detached h) _, .inl rfl⟩
  | popElement =>
    cases hpop : m.elements.pop with
    | error e =>
      refine ⟨_, m, Effect.run_bind_of_error ?_ _, .inr (.popElement hpop)⟩
      rw [Effect.run_takeElement, hpop]
    | ok popped =>
      have htaken : Effect.takeElement.run m = .ok popped.1 { m with elements := popped.2 } := by
        rw [Effect.run_takeElement, hpop]
      have hdetached : { m with elements := popped.2 }.cursor.detached = true := h
      refine ⟨_, { m with elements := popped.2 }, ?_, .inl rfl⟩
      rw [perform, Effect.run_bind_of_ok htaken]
      exact Effect.run_write_of_detached hdetached popped.1
  | storeElement value => exact ⟨_, m, Effect.run_write_of_detached h value, .inl rfl⟩
  | storeValue operand =>
    refine ⟨.navigation .detached, m, ?_, .inl rfl⟩
    show (Effect.lift (operand.resolve m) >>= Effect.giveValue).run m = _
    have hresolve : operand.resolve m = .error (.navigation .detached) := by
      cases operand with
      | field name => rw [Operand.resolve, Cursor.current_of_detached h]
      | current => rw [Operand.resolve, Cursor.current_of_detached h]; rfl
      | given v => cases hi
      | value depth => cases hi
    rw [hresolve]
    rfl
  | storeSize =>
    exact ⟨_, m, Effect.run_bind_of_error (Effect.run_current_of_detached h) _, .inl rfl⟩
  | filterArray predicate =>
    exact ⟨_, m, Effect.run_bind_of_error (Effect.run_currentItems_of_detached h _) _, .inl rfl⟩
  | createObject => exact ⟨_, m, Effect.run_write_of_detached h _, .inl rfl⟩
  | createArray => exact ⟨_, m, Effect.run_write_of_detached h _, .inl rfl⟩
  | delete =>
    refine ⟨_, m, ?_, .inl rfl⟩
    rw [perform, Effect.run_moveCursor, Cursor.delete_of_detached h]
  | mapArray body => cases hsingle
  | _ => cases hi

end Instruction

namespace Machine

variable {m m' : Machine} {i : Instruction}

/-- An instruction that uses the node fails, for want of the node or earlier. -/
theorem carryOut_of_detached (h : m.cursor.detached = true) (hi : i.usesNode = true)
    (run : Runner) :
    ∃ cause m', m.carryOut run i = some (.bare cause m') ∧
      (cause = .navigation .detached ∨ i.FailsEarly m cause) := by
  by_cases hmap : ∃ body, i = .mapArray body
  · obtain ⟨body, rfl⟩ := hmap
    refine ⟨_, m, ?_, .inl rfl⟩
    rw [carryOut, mapArray, Effect.run_currentItems_of_detached h]
  · have hsingle := Instruction.isSingle_of_usesNode hi fun body hbody => hmap ⟨body, hbody⟩
    obtain ⟨cause, m', hfailed, hearly⟩ := Instruction.perform_of_detached h hi hsingle
    refine ⟨cause, m', ?_, hearly⟩
    rw [Instruction.carryOut_of_isSingle hsingle, Outcome.ofEffect, hfailed]

/-- As long as no instruction moves up, a detached cursor stays as it is. -/
theorem allKeep_of_detached {c : Cursor} (h : c.detached = true) :
    Instruction.AllKeep (fun i => i.movesUp = false) (· = c) where
  perform := (Cursor.steady_of_detached h).perform
  mapArray := fun _ => (Cursor.steady_of_detached h).closedInside.write

/-- The machine whose current node has been deleted, with the document that is left. -/
def deleted (document : Json) (m : Machine) : Machine :=
  { m with cursor := { m.cursor with document, detached := true } }

/-- **Deleting a node removes its slot and freezes the document until the cursor moves up.** Take
any machine that calls lead to or pass through, with an attached cursor below the root. Deleting the
node succeeds and drops its slot from its parent; everything that parts from the parent stays.

From a machine with the cursor that is left, calls in which nothing moves up leave this cursor and so
the document, whether they succeed, fail or do not end. Wherever a machine has this cursor, an
instruction that uses the node fails, and moving out leads to the parent. No array is as long as the
greatest position. -/
theorem delete_freezes {document : Json} {limits : Limits} {trace : Bool} {m s : Machine}
    {program : Program} {last : Locator} {above : List Locator}
    (hm : (start document limits trace).Executed m) (hs : m.Visits program s)
    (hlen : ∀ trail items, Json.resolve trail s.document = some (.array items) →
      items.length < Number.lastIndex)
    (hattached : s.cursor.detached = false) (hstates : s.cursor.states.items = last :: above) :
    ∃ parent new frozen, Json.resolve above.reverse s.document = some parent ∧
      Json.Drops last parent new ∧
      frozen = s.deleted (Json.replace above.reverse new s.document) ∧
      (∀ run, s.carryOut run .delete = some (.done frozen)) ∧
      (∀ other, Apart above.reverse other →
        Json.resolve other frozen.document = Json.resolve other s.document) ∧
      (∀ first next : Machine, first.cursor = frozen.cursor →
        first.ExecutedOnly (fun i => i.movesUp = false) next →
        next.cursor = frozen.cursor ∧
          ∀ program t, RunsOnly (fun i => i.movesUp = false) program
              (next.record (.executing program.length next.trace)) →
            next.Visits program t → t.cursor = frozen.cursor) ∧
      ∀ t : Machine, t.cursor = frozen.cursor →
        (∀ i, i.usesNode = true → ∀ run, ∃ cause t',
          t.carryOut run i = some (.bare cause t') ∧
            (cause = .navigation .detached ∨ i.FailsEarly t cause)) ∧
        ∃ t', (∀ run, t.carryOut run .moveOut = some (.done t')) ∧
          t'.document = frozen.document ∧ t'.cursor.detached = false ∧
          t'.cursor.trail = above.reverse ∧ t'.cursor.path = Cursor.pathOf above.reverse ∧
          t'.cursor.current = .ok new := by
  have hplaced := placed_of_visits hm hs
  have hresolves := (hplaced.coherent hlen).resolves hattached
  obtain ⟨parent, new, hparent, hnew, -, hdelete⟩ :=
    Cursor.delete_of_attached hstates hattached hresolves
  obtain ⟨parent', child, hparent', hchild⟩ :=
    (hplaced.coherent hlen).parent_child hattached hstates
  cases hparent.symm.trans hparent'
  refine ⟨parent, new, _, hparent, Cursor.withoutChild_drops hchild hnew, rfl, ?_, ?_, ?_, ?_⟩
  · intro run
    show some (Outcome.ofEffect (Effect.moveCursor Cursor.delete) s) = _
    rw [Outcome.ofEffect, Effect.run_moveCursor, hdelete]
    rfl
  · exact fun other hapart => Json.resolve_replace_of_apart hapart new s.document
  · intro first next hfirst hnext
    have hkeep := allKeep_of_detached
      (c := (s.deleted (Json.replace above.reverse new s.document)).cursor) rfl
    have hcursor := hkeep.executed hnext hfirst
    refine ⟨hcursor, fun program t hruns ht => hkeep.visits ?_ hruns ht hcursor⟩
    rintro _ items rfl hcurrent
    rw [Cursor.current_of_detached rfl] at hcurrent
    cases hcurrent
  · intro t ht
    have hdetached : t.cursor.detached = true := by
      rw [ht]
      rfl
    have hstands : t.cursor.Placed := by
      rw [ht]
      exact hplaced.delete hdelete
    have hstates' : t.cursor.states.items = last :: above := by
      rw [ht]
      exact hstates
    obtain ⟨path, paths, -, hout⟩ := hstands.moveOut_eq hstates'
    have hcursor : t.cursor.moveOut.trail = above.reverse ∧ t.cursor.moveOut.detached = false := by
      rw [hout]
      exact ⟨rfl, rfl⟩
    have hdocument : t.cursor.moveOut.document = Json.replace above.reverse new s.document := by
      rw [Cursor.document_moveOut, ht]
      rfl
    refine ⟨fun i hi run => carryOut_of_detached hdetached hi run,
      { t with cursor := t.cursor.moveOut }, fun _ => rfl, hdocument, hcursor.2, hcursor.1, ?_, ?_⟩
    · rw [hstands.moveOut.path_eq, hcursor.1]
    · have hnode : Json.resolve above.reverse (Json.replace above.reverse new s.document) =
          some new := Json.resolve_replace new (Option.isSome_of_eq_some hparent)
      rw [Cursor.current, Cursor.current?_of_attached hcursor.2, hcursor.1, hdocument, hnode]

/-- The first of two items is deleted. The position of the cursor is now that of the other one, and
all the same nothing can be read or written there. -/
theorem delete_freezes_at_first_item :
    ∃ s : Machine, (start (.array [.null, .bool true]) {} false).Visits
        [.moveIntoIndex (.given (Json.ofNat 0)), .delete] s ∧
      s.cursor.detached = false ∧ s.cursor.states.items = [.index 0] ∧
      ∃ frozen : Machine, frozen.document = .array [.bool true] ∧
        (∀ run, s.carryOut run .delete = some (.done frozen)) ∧
        ∀ i, i.usesNode = true → ∀ run, ∃ cause t', frozen.carryOut run i = some (.bare cause t') ∧
          (cause = .navigation .detached ∨ i.FailsEarly frozen cause) := by
  have hindex : (Json.ofNat 0).toIndex? = some 0 := Json.toIndex?_ofNat (by decide)
  -- What counts of the number is the position that it stands for.
  generalize Json.ofNat 0 = index at hindex ⊢
  have hstep : ∃ s : Machine, step (run 0) (.moveIntoIndex (.given index))
        ((start (.array [.null, .bool true]) {} false).record (.executing 2 false)) =
          some (.done s) ∧
      s.cursor.detached = false ∧ s.cursor.states.items = [.index 0] ∧
      s.document = .array [.null, .bool true] := by
    rw [step_eq]
    show ∃ s, (some (Outcome.ofEffect (Effect.intoIndex index) _)).map _ = _ ∧ _
    rw [Outcome.ofEffect, Effect.run_intoIndex hindex]
    exact ⟨_, rfl, rfl, rfl, rfl⟩
  obtain ⟨s, hstep, hattached, hstates, hdocument⟩ := hstep
  have hs : (start (.array [.null, .bool true]) {} false).Visits
      [.moveIntoIndex (.given index), .delete] s := ⟨_, .single (.done hstep)⟩
  have hsized : s.document.SizedBelow Number.lastIndex := by
    rw [hdocument]
    exact Json.sizedBelow_of_widest_lt _ (by decide)
  obtain ⟨parent, new, frozen, hparent, hdrops, hfrozen, hdelete, -, -, hfails⟩ :=
    delete_freezes .refl hs (fun trail items hitems => hsized trail _ _ hitems rfl) hattached hstates
  have hnew : new = .array [.bool true] := by
    rw [hdocument] at hparent
    cases hparent
    generalize hposition : Locator.index 0 = last at hdrops
    generalize hitems : Json.array [.null, .bool true] = parent at hdrops
    cases hdrops with
    | field => cases hposition
    | @item child before after =>
      cases before with
      | nil => cases hitems; rfl
      | cons => cases hposition
  subst hnew hfrozen
  refine ⟨s, hs, hattached, hstates, _, ?_, hdelete, (hfails _ rfl).1⟩
  rw [hdocument]
  rfl

end Machine

end Reshape
