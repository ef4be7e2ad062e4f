import Reshape.Proofs.Move.Simulation

/-!
# Moves on a fresh machine

A move that has a program is applied to a document by running the program on a fresh machine.

* `execute_agrees_with_direct`: the outcome is that of the direct copy;
* `direct_of_apply`: a document that `Move.apply` returns is that of the direct copy.
-/

namespace Reshape.Move

variable {move : Move} {program : Program}

/-- **The program of a move and the direct copy agree.** Run on a document in a fresh machine, the
program has an outcome, which more fuel does not change. It stops at a ceiling, or it ends with the
document of the direct copy, or it fails and the direct copy finds a fault of the same kind. -/
theorem execute_agrees_with_direct (hp : move.program = .ok program) {document : Json}
    {limits : Limits} (trace : Bool) (hsize : document.SizedBelow (2 ^ 52))
    (hpadding : limits.arrayPadding < 2 ^ 52) (hrounds : limits.loopIterations < 2 ^ 52) :
    ∃ o, (∀ fuel, Program.nesting program ≤ fuel →
        (Machine.start document limits trace).execute fuel program = some o) ∧
      ((∃ e m, o = .failed e m ∧ e.cause.IsCeiling) ∨
        (∃ m, o = .done m ∧ move.direct limits.arrayPadding document = .ok m.document) ∨
        ∃ e m fault, o = .failed e m ∧
          move.direct limits.arrayPadding document = .error fault ∧ fault.Explains e.cause) := by
  obtain ⟨o, ho, hagrees⟩ := program_agrees hp
    (m := (Machine.start document limits trace).record (.executing program.length trace))
    hpadding hrounds hsize (Nat.le_refl _)
  refine ⟨o, fun fuel hfuel => Machine.run_mono hfuel ho, ?_⟩
  rcases hagrees with @⟨result, s, m, hr, hm, rfl⟩ | ⟨m, hc⟩ | ⟨m, hr, he⟩
  · exact .inr (.inl ⟨m, rfl, hr.trans (congrArg Except.ok hm.document.symm)⟩)
  · exact .inl ⟨_, m, rfl, hc⟩
  · exact .inr (.inr ⟨_, m, _, rfl, hr, he⟩)

/-- Whether a move has a program and a call of it succeeds can be computed. -/
theorem exists_done_of_isDone {m : Machine} {fuel : Nat}
    (h : (move.program.toOption.bind fun program => (m.execute fuel program).map Outcome.isDone) =
      some true) :
    ∃ program m', move.program = .ok program ∧ m.execute fuel program = some (.done m') := by
  obtain ⟨program, hp, ho⟩ := Option.bind_eq_some_iff.1 h
  obtain ⟨o, ho, hdone⟩ := Option.map_eq_some_iff.1 ho
  cases hprogram : move.program with
  | error e =>
    rw [hprogram] at hp
    cases hp
  | ok found =>
    rw [hprogram] at hp
    cases hp
    cases o with
    | done m' => exact ⟨program, m', rfl, ho⟩
    | failed e m' => cases hdone

/-- Two texts are copied to the items of an array, past the one that it has. The table has a value
for one of them. -/
theorem execute_agrees_with_direct_past_offset :
    ∃ program m, Move.program ⟨"$.a[*]", "$.b[*+$.b].y", some [("u", .bool true)]⟩ = .ok program ∧
      (∀ fuel, Program.nesting program ≤ fuel →
        (Machine.start (.object [("a", .array [.text "u", .text "v"]), ("b", .array [.null])]) {}
          false).execute fuel program = some (.done m)) ∧
      m.document = .object [("a", .array [.text "u", .text "v"]),
        ("b", .array [.null, .object [("y", .bool true)], .object [("y", .text "v")]])] := by
  obtain ⟨program, m, hp, hm⟩ := exists_done_of_isDone (m := Machine.start
      (.object [("a", .array [.text "u", .text "v"]), ("b", .array [.null])]) {} false)
    (show (Move.program ⟨"$.a[*]", "$.b[*+$.b].y", some [("u", .bool true)]⟩).toOption.bind
      (fun program => (Machine.execute 2 program _).map Outcome.isDone) = some true by
        decide +kernel)
  have hsize : (Json.object [("a", .array [.text "u", .text "v"]),
      ("b", .array [.null])]).SizedBelow (2 ^ 52) := Json.sizedBelow_of_widest_lt _ (by decide)
  obtain ⟨o, ho, h⟩ :=
    @execute_agrees_with_direct _ _ hp _ {} false hsize (by decide) (by decide)
  -- The run is far from the ceilings: with fuel for two levels it succeeds.
  obtain rfl : o = .done m := by
    have hmore := ho (Program.nesting program + 2) (Nat.le_add_right ..)
    exact Machine.run_eq_of_run hmore hm
  refine ⟨program, m, hp, ho, ?_⟩
  rcases h with ⟨e, m, h, -⟩ | ⟨m, h, hd⟩ | ⟨e, m, fault, h, -⟩
  · cases h
  · cases h
    exact (Except.ok.inj hd).symm
  · cases h

/-- The document that a move leaves is the one that the run of its program comes to. -/
theorem result_of_apply {document document' : Json} {result : Except Fault Json} {o : Outcome}
    (hp : move.program = .ok program)
    (ho : (Machine.start document {} false).execute (Program.nesting program) program = some o)
    (hagrees : o.Agrees {} result fun document s => s.place.document = document)
    (h : move.apply document = .ok document') : result = .ok document' := by
  simp only [apply, hp, ho] at h
  rcases hagrees with @⟨result, s, m, hr, hm, rfl⟩ | ⟨m, hc⟩ | ⟨m, hr, he⟩
  · cases h
    exact hr.trans (congrArg Except.ok hm.document.symm)
  · cases h
  · cases h

theorem exists_program_of_apply {document document' : Json}
    (h : move.apply document = .ok document') : ∃ program, move.program = .ok program := by
  cases hp : move.program with
  | error e =>
    simp only [apply, hp] at h
    cases h
  | ok program => exact ⟨program, rfl⟩

/-- A move that has been applied has made the direct copy. -/
theorem direct_of_apply {document document' : Json} (hsize : document.SizedBelow (2 ^ 52))
    (h : move.apply document = .ok document') :
    move.direct ({} : Limits).arrayPadding document = .ok document' := by
  obtain ⟨program, hp⟩ := exists_program_of_apply h
  have hpadding : ({} : Limits).arrayPadding < 2 ^ 52 := by decide
  have hrounds : ({} : Limits).loopIterations < 2 ^ 52 := by decide
  obtain ⟨o, ho, hagrees⟩ := program_agrees hp
    (m := (Machine.start document {} false).record (.executing program.length false))
    hpadding hrounds hsize (Nat.le_refl _)
  exact result_of_apply hp ho hagrees h

end Reshape.Move
