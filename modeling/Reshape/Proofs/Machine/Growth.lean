import Reshape.Proofs.Json.Growth
import Reshape.Proofs.Machine.Composed
import Reshape.Proofs.Machine.Step
import Reshape.Proofs.Machine.Visits
import Reshape.Proofs.Number.Exact

/-!
# Navigation

A program that only moves makes the document grow, whether it comes to its end or fails on the way.
There is one exception: to move into a field as an array replaces a value of another kind.

* `Instruction.isNavigation`, and `Instruction.Coerces`, a move that replaces a value;
* `growsTo_perform`, one move, and `Machine.NeverCoerces`, a program of which no move replaces
  anything;
* `Machine.navigation_grows`, for calls.
-/

namespace Reshape

open Json

/-- The instruction moves the cursor and does nothing else. -/
def Instruction.isNavigation : Instruction → Bool
  | moveToRoot => true
  | moveOut => true
  | moveIntoField .. => true
  | moveIntoIndex _ => true
  | _ => false

/-- The instruction moves into a field as an array, and the field holds a value of another kind. -/
def Instruction.Coerces : Instruction → Cursor → Prop
  | moveIntoField .array name, c =>
    ∃ node value, c.current? = some node ∧ node.get? name = some value ∧ value.kind ≠ .array
  | _, _ => False

variable {i : Instruction} {c c' : Cursor} {m : Machine}

/-! ### One move -/

/-- A field is entered without replacing its value, unless it is entered as an array. -/
theorem Instruction.accepts_of_not_coerces {mode : FieldMode} {name : String} {node value : Json}
    (h : ¬ (Instruction.moveIntoField mode name).Coerces c) (hnode : c.current? = some node)
    (hvalue : node.get? name = some value) : mode.accepts value = true := by
  cases mode with
  | object => rfl
  | leaf => rfl
  | array =>
    by_contra haccepts
    refine h ⟨node, value, hnode, hvalue, fun hkind => haccepts ?_⟩
    cases value <;> cases hkind
    rfl

theorem Cursor.growsTo_intoField {mode : FieldMode} {name : String}
    (hkeeps : ¬ (Instruction.moveIntoField mode name).Coerces c)
    (h : c.intoField mode name = .ok c') : c.document.GrowsTo c'.document := by
  obtain ⟨node, new, hnode, hnew, rfl⟩ := intoField_eq_ok h
  have hgrows : node.GrowsTo new :=
    growsTo_withField (fun _ => Instruction.accepts_of_not_coerces hkeeps hnode) hnew
  exact hgrows.replace (attached_of_current? hnode).2

theorem Cursor.growsTo_intoIndex {limit position : Nat}
    (h : c.intoIndex limit position = .ok c') : c.document.GrowsTo c'.document := by
  obtain ⟨node, new, hnode, hnew, rfl⟩ := intoIndex_eq_ok h
  exact (growsTo_withIndex hnew).replace (attached_of_current? hnode).2

/-- **A move that replaces no value makes the document grow**, also if it fails. -/
theorem growsTo_perform (hi : i.isNavigation = true) (hkeeps : ¬ i.Coerces m.cursor) :
    m.document.GrowsTo (i.perform.left m).document := by
  cases i with
  | moveToRoot => exact .refl _
  | moveOut =>
    show m.document.GrowsTo m.cursor.moveOut.document
    rw [Cursor.document_moveOut]
    exact .refl _
  | moveIntoField mode name =>
    show m.document.GrowsTo ((Effect.moveCursor fun c => c.intoField mode name).left m).document
    rw [Effect.left, Effect.run_moveCursor]
    cases h : m.cursor.intoField mode name with
    | error e => exact .refl _
    | ok cursor => exact Cursor.growsTo_intoField hkeeps h
  | moveIntoIndex position =>
    have hclosed : Effect.Closed (Effect.Leaves fun m m' => m.document.GrowsTo m'.document) :=
      Effect.Leaves.closed (fun _ => .refl _) (fun _ _ _ => GrowsTo.trans)
        (fun _ _ => .refl _) fun _ _ => .refl _
    exact hclosed.resolve position
      (Effect.Leaves.intoIndex (fun _ => .refl _) Cursor.growsTo_intoIndex) m
  | _ => cases hi

namespace Machine

/-! ### Programs of moves -/

/-- No instruction of a program replaces a value by an array, when the program gets to it. -/
def NeverCoerces (run : Runner) : Program → Machine → Prop
  | [], _ => True
  | i :: rest, m =>
    ¬ i.Coerces m.cursor ∧ ∀ m', step run i m = some (.done m') → NeverCoerces run rest m'

/-- A move runs no bodies, so a step of it ends, and the cursor is where the move has left it. -/
theorem exists_step_of_isNavigation (hi : i.isNavigation = true) (run : Runner) (m : Machine) :
    ∃ o, step run i m = some o ∧ o.machine.cursor = (i.perform.left (m.announce i)).cursor := by
  have hcarry : (m.announce i).carryOut run i = some (.ofEffect i.perform (m.announce i)) := by
    cases i <;> first | rfl | cases hi
  refine ⟨_, step_eq_some hcarry, ?_⟩
  rw [← Effect.machine_ofEffect]
  cases Outcome.ofEffect i.perform (m.announce i) with
  | done m' => exact cursor_complete m' i
  | failed e m' => rfl

theorem exists_step_growsTo (hi : i.isNavigation = true) (hkeeps : ¬ i.Coerces m.cursor)
    (run : Runner) : ∃ o, step run i m = some o ∧ m.document.GrowsTo o.machine.document := by
  obtain ⟨o, ho, hcursor⟩ := exists_step_of_isNavigation hi run m
  rw [← cursor_announce m i] at hkeeps
  have hgrows := growsTo_perform hi hkeeps
  have hstart : (m.announce i).document = m.document :=
    congrArg Cursor.document (cursor_announce m i)
  have hend : o.machine.document = (i.perform.left (m.announce i)).document :=
    congrArg Cursor.document hcursor
  rw [hstart, ← hend] at hgrows
  exact ⟨o, ho, hgrows⟩

theorem exists_inSequence_growsTo {run : Runner} {program : Program}
    (hprogram : ∀ i ∈ program, i.isNavigation = true) (hkeeps : NeverCoerces run program m) :
    ∃ o, inSequence (step run) program m = some o ∧ m.document.GrowsTo o.machine.document := by
  induction program generalizing m with
  | nil => exact ⟨_, rfl, .refl _⟩
  | cons i rest ih =>
    rw [List.forall_mem_cons] at hprogram
    obtain ⟨first, hfirst, hgrows⟩ := exists_step_growsTo hprogram.1 hkeeps.1 run
    rw [inSequence, hfirst]
    cases first with
    | failed e m' => exact ⟨_, rfl, hgrows⟩
    | done m' =>
      obtain ⟨o, ho, hrest⟩ := ih hprogram.2 (hkeeps.2 m' hfirst)
      exact ⟨o, ho, hgrows.trans hrest⟩

/-- **Navigation only grows the document.** Take a program of moves on any machine, none of which
moves as into an array into a field that holds a value of another kind. A call ends, and whether it
comes to the end of the program or fails on the way, the document behind it has grown from the one
in front. So every trail that led to a node leads to a node of the same kind, which has grown. -/
theorem navigation_grows {program : Program} {fuel : Nat}
    (hprogram : ∀ i ∈ program, i.isNavigation = true)
    (hkeeps : NeverCoerces (run fuel) program (m.record (.executing program.length m.trace))) :
    ∃ o, m.execute (fuel + 1) program = some o ∧ m.document.GrowsTo o.machine.document ∧
      ∀ trail node, resolve trail m.document = some node →
        ∃ found, resolve trail o.machine.document = some found ∧ found.kind = node.kind ∧
          node.GrowsTo found := by
  obtain ⟨o, ho, hgrows⟩ := exists_inSequence_growsTo hprogram hkeeps
  refine ⟨o, ho, hgrows, fun trail node hnode => ?_⟩
  obtain ⟨found, hfound, hnodegrows⟩ := hgrows.exists_resolve hnode
  exact ⟨found, hfound, hnodegrows.kind_eq, hnodegrows⟩

/-- Two empty objects are put behind the item of an array, an array is put into the second of them,
and a move into a field of that array fails. -/
theorem navigation_grows_up_to_failure :
    ∃ (m m' : Machine) (program : Program) (e : MachineError),
      m.document = .object [("a", .array [.bool true]), ("b", .null)] ∧
      program = [.moveIntoField .array "a", .moveIntoIndex (.given (Json.ofNat 2)),
        .moveIntoField .array "c", .moveIntoField .object "d"] ∧
      (∀ i ∈ program, i.isNavigation = true) ∧
      NeverCoerces (run 0) program (m.record (.executing program.length m.trace)) ∧
      m.execute 1 program = some (.failed e m') ∧
      m'.document = .object [("a", .array [.bool true, .object [], .object [("c", .array [])]]),
        ("b", .null)] ∧
      m.document.GrowsTo m'.document := by
  have hindex : (Json.ofNat 2).toIndex? = some 2 := Json.toIndex?_ofNat (by decide)
  -- What counts of the number is the position that it stands for.
  generalize Json.ofNat 2 = index at hindex ⊢
  have hmoves : ∀ i ∈ [Instruction.moveIntoField .array "a", .moveIntoIndex (.given index),
      .moveIntoField .array "c", .moveIntoField .object "d"], i.isNavigation = true := by
    simp [Instruction.isNavigation]
  have hkeeps : NeverCoerces (run 0)
      [.moveIntoField .array "a", .moveIntoIndex (.given index), .moveIntoField .array "c",
        .moveIntoField .object "d"]
      ((start (.object [("a", .array [.bool true]), ("b", .null)]) {} false).record
        (.executing 4 false)) := by
    refine ⟨?_, fun m₁ h₁ => ⟨id, fun m₂ h₂ => ⟨?_, fun m₃ h₃ => ⟨id, fun _ _ => trivial⟩⟩⟩⟩
    · rintro ⟨node, value, hnode, hvalue, hkind⟩
      cases hnode
      cases hvalue
      exact hkind rfl
    · cases h₁
      rw [step_eq] at h₂
      change (some (Outcome.ofEffect (Effect.intoIndex index) _)).map _ = _ at h₂
      rw [Outcome.ofEffect, Effect.run_intoIndex hindex] at h₂
      cases h₂
      rintro ⟨node, value, hnode, hvalue, hkind⟩
      cases hnode
      cases hvalue
  have hsteps : ∃ s₁, step (run 0) (.moveIntoField .array "a")
        ((start (.object [("a", .array [.bool true]), ("b", .null)]) {} false).record
          (.executing 4 false)) = some (.done s₁) ∧
      ∃ s₂, step (run 0) (.moveIntoIndex (.given index)) s₁ = some (.done s₂) ∧
      ∃ s₃, step (run 0) (.moveIntoField .array "c") s₂ = some (.done s₃) ∧
      ∃ e s₄, step (run 0) (.moveIntoField .object "d") s₃ = some (.failed e s₄) ∧
        s₄.document = .object
          [("a", .array [.bool true, .object [], .object [("c", .array [])]]), ("b", .null)] := by
    refine ⟨_, rfl, ?_⟩
    rw [step_eq]
    show ∃ s₂, (some (Outcome.ofEffect (Effect.intoIndex index) _)).map _ = _ ∧ _
    rw [Outcome.ofEffect, Effect.run_intoIndex hindex]
    exact ⟨_, rfl, _, rfl, _, _, rfl, rfl⟩
  obtain ⟨s₁, hfirst, s₂, hsecond, s₃, hthird, e, s₄, hfourth, hdocument⟩ := hsteps
  have hfailed : inSequence (step (run 0)) [.moveIntoField .array "a",
      .moveIntoIndex (.given index), .moveIntoField .array "c", .moveIntoField .object "d"]
      ((start (.object [("a", .array [.bool true]), ("b", .null)]) {} false).record
        (.executing 4 false)) = some (.failed e s₄) := by
    simp only [inSequence, hfirst, hsecond, hthird, hfourth]
  obtain ⟨o, ho, hgrows, -⟩ := navigation_grows hmoves hkeeps
  cases ho.symm.trans hfailed
  exact ⟨_, s₄, _, e, rfl, rfl, hmoves, hkeeps, hfailed, hdocument, hgrows⟩

end Machine

end Reshape
