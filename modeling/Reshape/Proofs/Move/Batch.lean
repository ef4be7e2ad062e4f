import Reshape.Proofs.Machine.Budget
import Reshape.Proofs.Machine.Fresh
import Reshape.Proofs.Machine.Halting
import Reshape.Proofs.Move.Typing

/-!
# Moves in a batch

One machine can run the programs of many moves, in one call or in one call after the other. Each
program starts with a reset, so what it finds of the ones before it is their document and their
count of instructions. Apart from the ceiling for that count, the machine makes the moves as they
are made one by one, each on a fresh machine.

* `Program.Replayable` and `program_replayable`, what the programs of moves have in common;
* `Machine.runEach`, calls in turn, and `run_flatten`;
* `Move.applyAll`, the moves one by one, and `Move.Replays`, what the end of a batch says of them;
* `execute_batch_replays`.
-/

namespace Reshape

/-! ### The programs of moves -/

section

variable {i : Instruction} {shape shape' : Shape} {allowed : StopCondition → Prop}

theorem Instruction.Typed.isSingle (h : i.Typed shape shape') : i.isSingle = true := by
  cases h <;> rfl

theorem Instruction.Typed.everyCondition (h : i.Typed shape shape') : i.EveryCondition allowed := by
  cases h <;> trivial

end

namespace Program

variable {program first second : Program} {shape shape' : Shape}

theorem Structured.append {allowed : Instruction → Prop} (h : first.Structured allowed)
    (h' : second.Structured allowed) : Structured allowed (first ++ second) := by
  induction h with
  | nil => exact h'
  | single hi ha _ ih => exact .single hi ha ih
  | jumpIfTrue hinner _ _ ih => exact .jumpIfTrue hinner ih
  | jumpIfFalse hinner _ _ ih => exact .jumpIfFalse hinner ih
  | mapArray hbody _ _ ih => exact .mapArray hbody ih
  | loop condition hbody _ _ ih => exact .loop condition hbody ih

theorem everyCondition_append {allowed : StopCondition → Prop}
    (h : EveryCondition allowed first) (h' : EveryCondition allowed second) :
    EveryCondition allowed (first ++ second) := by
  induction first with
  | nil => exact h'
  | cons i rest ih => exact ⟨h.1, ih h.2⟩

/-- The run of a program ends, and it does not depend on how many instructions have been completed
before. -/
structure Replayable (program : Program) : Prop where
  structured : program.Structured fun _ => True
  conditions : Program.EveryCondition StopCondition.IgnoresCount program

theorem Replayable.append (h : first.Replayable) (h' : second.Replayable) :
    Replayable (first ++ second) :=
  ⟨h.structured.append h'.structured, everyCondition_append h.conditions h'.conditions⟩

theorem Replayable.reset (h : program.Replayable) : Replayable (.reset :: program) :=
  ⟨.single rfl trivial h.structured, trivial, h.conditions⟩

theorem structured_flatten {programs : List Program}
    (h : ∀ program ∈ programs, program.Structured fun _ => True) :
    Structured (fun _ => True) programs.flatten := by
  induction programs with
  | nil => exact .nil
  | cons program rest ih =>
    obtain ⟨hprogram, hrest⟩ := List.forall_mem_cons.1 h
    exact hprogram.append (ih hrest)

/-- A typed program asks for the count of no instructions but its own ones. -/
theorem Typed.replayable (h : program.Typed shape shape') : program.Replayable := by
  induction h with
  | nil => exact ⟨.nil, trivial⟩
  | cons hi _ ih =>
    exact ⟨.single hi.isSingle trivial ih.structured, hi.everyCondition, ih.conditions⟩
  | jump hi _ ih =>
    exact ⟨.jumpIfFalse (.single hi.isSingle trivial .nil) ih.structured, hi.everyCondition,
      ih.conditions⟩
  | loop _ _ ihbody ih =>
    exact ⟨.loop _ ihbody.structured ih.structured, ihbody.conditions, trivial, ih.conditions⟩

end Program

namespace Move

variable {move : Move} {program : Program}

theorem copy_replayable {source target : List Component}
    (hp : move.copy source target = .ok program) : program.Replayable := by
  unfold copy at hp
  split at hp
  · have htyped : program.Typed ⟨0, []⟩ ⟨0 + 1, [.word, .number]⟩ := typed_copyToEach hp
    exact htyped.replayable
  · obtain ⟨around, first, rest, hfirst, hprogram, hrest⟩ := typed_behind_firstPosition hp
    have hbehind : rest.Typed ⟨0, [.finite]⟩ ⟨0, [.word, .number, .finite]⟩ := hrest
    have htyped : first.Typed ⟨0, []⟩ ⟨0, [.number]⟩ := typed_firstPosition hfirst
    rw [hprogram]
    exact htyped.replayable.append hbehind.replayable
  · have htyped : program.Typed ⟨0, []⟩ ⟨0, []⟩ := typed_copyOne hp
    exact htyped.replayable

/-- The program of a move is a reset and a program that does not depend on the count. -/
theorem program_replayable (hp : move.program = .ok program) :
    ∃ rest, program = .reset :: rest ∧ Program.Replayable rest := by
  obtain ⟨⟨source, target⟩, -, hp⟩ := bind_eq_ok.1 hp
  obtain ⟨rest, hcopy, hp⟩ := bind_eq_ok.1 hp
  cases hp
  exact ⟨rest, rfl, copy_replayable hcopy⟩

theorem program_structured (hp : move.program = .ok program) :
    program.Structured fun _ => True := by
  obtain ⟨rest, rfl, hrest⟩ := program_replayable hp
  exact hrest.reset.structured

end Move

/-! ### Calls in turn -/

namespace Machine

variable {fuel : Nat} {m : Machine} {o : Outcome}

/-- Call programs one after the other, up to the first failure. -/
def runEach (call : Runner) : List Program → Machine → Option Outcome
  | [], m => some (.done m)
  | program :: rest, m =>
    match call program m with
    | some (.done m) => runEach call rest m
    | other => other

/-- To run programs as one is to run them in turn. -/
theorem run_flatten (fuel : Nat) (programs : List Program) (m : Machine) :
    run (fuel + 1) programs.flatten m = runEach (run (fuel + 1)) programs m := by
  induction programs generalizing m with
  | nil => rfl
  | cons program rest ih =>
    rw [List.flatten_cons, run, inSequence_append, runEach]
    rw [show run (fuel + 1) program m = inSequence (step (run fuel)) program m from rfl]
    cases inSequence (step (run fuel)) program m with
    | none => rfl
    | some first =>
      cases first with
      | failed e m₁ => rfl
      | done m₁ => exact ih m₁

/-- Calls of structured programs end, whatever is left by the ones before. -/
theorem runEach_ends {programs : List Program}
    (h : ∀ program ∈ programs, program.Structured fun _ => True) (m : Machine) :
    ∃ o, ∀ fuel, (∀ program ∈ programs, Program.nesting program ≤ fuel) →
      runEach (execute fuel) programs m = some o := by
  induction programs generalizing m with
  | nil => exact ⟨.done m, fun _ _ => rfl⟩
  | cons program rest ih =>
    obtain ⟨hprogram, hrest⟩ := List.forall_mem_cons.1 h
    obtain ⟨first, hfirst, -⟩ := hprogram.halts (Nat.le_refl _) m.commands.items
      (m.record (.executing program.length m.trace)) (.inl rfl)
    have hcall (fuel : Nat) (hfuel : Program.nesting program ≤ fuel) :
        m.execute fuel program = some first := run_mono hfuel hfirst
    cases first with
    | failed e m₁ =>
      refine ⟨.failed e m₁, fun fuel hfuel => ?_⟩
      rw [runEach, hcall fuel (List.forall_mem_cons.1 hfuel).1]
    | done m₁ =>
      obtain ⟨o, ho⟩ := ih hrest m₁
      refine ⟨o, fun fuel hfuel => ?_⟩
      rw [runEach, hcall fuel (List.forall_mem_cons.1 hfuel).1]
      exact ho fuel (List.forall_mem_cons.1 hfuel).2

end Machine

/-! ### Moves one by one -/

namespace Move

open Machine

/-- The document after one move after the other, up to the first one that fails. -/
def applyAll (moves : List Move) (document : Json) : Except MoveError Json :=
  moves.foldlM (fun document move => move.apply document) document

/-- What the end of a batch on a machine says of its moves. If the batch succeeds, so do the moves,
with the same document. If it fails, then in the program of one of the moves: the moves before it
succeed with the document that this program found, and the move fails in the same way, unless it was
the ceiling of instructions that the batch had reached. -/
def Replays (moves : List Move) (programs : List Program) (call : Runner) (m : Machine) :
    Outcome → Prop
  | .done m' => applyAll moves m.document = .ok m'.document
  | .failed e m' => ∃ j move program m₁, moves[j]? = some move ∧ programs[j]? = some program ∧
      runEach call (programs.take j) m = some (.done m₁) ∧ call program m₁ = some (.failed e m') ∧
      applyAll (moves.take j) m.document = .ok m₁.document ∧
      (¬ e.cause.IsOperationLimit → move.apply m₁.document = .error (.machine e))

variable {move : Move} {moves : List Move} {program : Program} {programs : List Program}
  {call : Runner} {fuel : Nat} {m m₁ : Machine} {o : Outcome}

/-- A move is made by its program on a fresh machine, however much fuel that has. -/
theorem apply_eq_of_execute {document : Json} (hp : move.program = .ok program)
    (ho : (Machine.start document {} false).execute fuel program = some o) :
    move.apply document = match o with
      | .done m => .ok m.document
      | .failed e _ => .error (.machine e) := by
  obtain ⟨o', ho', -⟩ := (program_structured hp).halts (Nat.le_refl _) []
    ((Machine.start document {} false).record (.executing program.length false)) (.inl rfl)
  cases run_eq_of_run ho' ho
  have hcall : (Machine.start document {} false).execute (Program.nesting program) program =
      some o := ho'
  unfold apply
  simp only [hp, hcall]
  cases o <;> rfl

/-- What a program does on a machine with a history, the move does on a fresh one. -/
theorem apply_of_run (hp : move.program = .ok program) (hm : m.Named) (hlimits : m.limits = {})
    (ho : run fuel program m = some o) : match o with
      | .done m₁ => move.apply m.document = .ok m₁.document
      | .failed e _ => ¬ e.cause.IsOperationLimit →
        move.apply m.document = .error (.machine e) := by
  obtain ⟨rest, hprogram, hrest⟩ := program_replayable hp
  have hfresh : ((Machine.start m.document {} false).record
      (.executing program.length false)).Named :=
    (named_start m.document {} false).of_same rfl rfl rfl rfl
  rw [hprogram] at ho
  have hforetold := run_reset_foretells hm hfresh rfl hlimits.symm (Nat.zero_le _)
    hrest.conditions ho
  rw [← hprogram] at hforetold
  cases o with
  | done m₁ =>
    obtain ⟨m₁', hcall, hahead⟩ := hforetold
    obtain ⟨_, _, _, rfl⟩ := hahead.same
    exact apply_eq_of_execute hp hcall
  | failed e m₁ =>
    intro hcause
    rcases hforetold with hlimit | ⟨m₁', hcall, -⟩
    · exact (hcause hlimit).elim
    · exact apply_eq_of_execute hp hcall

/-- One more move in front. -/
theorem Replays.cons (happly : move.apply m.document = .ok m₁.document)
    (hcall : call program m = some (.done m₁)) (h : Replays moves programs call m₁ o) :
    Replays (move :: moves) (program :: programs) call m o := by
  have happlyAll (rest : List Move) :
      applyAll (move :: rest) m.document = applyAll rest m₁.document := by
    rw [applyAll, List.foldlM_cons, happly]
    rfl
  cases o with
  | done m' =>
    have hrest : applyAll moves m₁.document = .ok m'.document := h
    exact (happlyAll moves).trans hrest
  | failed e m' =>
    obtain ⟨j, moved, ran, m₂, hmove, hprogram, hbefore, hfailed, hmoves, hmoved⟩ := h
    refine ⟨j + 1, moved, ran, m₂, hmove, hprogram, ?_, hfailed, ?_, hmoved⟩
    · rw [List.take_succ_cons, runEach, hcall]
      exact hbefore
    · rw [List.take_succ_cons, happlyAll]
      exact hmoves

/-- Programs that are called in turn make their moves one by one. To call one may report, too. -/
theorem replays_of_runEach
    (hcall : ∀ program m, ∃ log, call program m = run fuel program { m with log })
    (hprograms : List.Forall₂ (fun move program => move.program = .ok program) moves programs)
    (hm : m.Named) (hlimits : m.limits = {}) (ho : runEach call programs m = some o) :
    Replays moves programs call m o := by
  induction hprograms generalizing m with
  | nil =>
    cases ho
    rfl
  | @cons move program moves programs hp _ ih =>
    obtain ⟨log, hrun⟩ := hcall program m
    rw [runEach] at ho
    cases hfirst : call program m with
    | none => simp [hfirst] at ho
    | some first =>
      have hran := hrun.symm.trans hfirst
      have hreported : ({ m with log } : Machine).Named := hm.of_same rfl rfl rfl rfl
      have happly := apply_of_run hp hreported hlimits hran
      rw [hfirst] at ho
      cases first with
      | done m₁ =>
        have hcharges := Outcome.charges_law.run fuel program _ _ hran
        exact .cons happly hfirst
          (ih (hreported.of_run hran) (hcharges.limits.trans hlimits) ho)
      | failed e m₁ =>
        cases ho
        exact ⟨0, move, program, m, rfl, rfl, rfl, hfirst, rfl, happly⟩

/-- **A batch replays its moves.** Take any moves that have programs, and one machine under the
usual ceilings that starts fresh on any document. It may run all the programs in one call, or call
one after the other. Either way it comes to an end. If it succeeds, the moves succeed one by one,
each on a fresh machine and on what the move before has made, and the document is the same. If it
fails in the program of a move, the moves before it succeed with the document that the program
found, and the move itself fails with the same error, unless the error is that the machine has
completed too many instructions. -/
theorem execute_batch_replays
    (hprograms : List.Forall₂ (fun move program => move.program = .ok program) moves programs)
    (document : Json) (trace : Bool) :
    (∃ o, ∀ fuel, Program.nesting programs.flatten ≤ fuel →
      (Machine.start document {} trace).execute fuel programs.flatten = some o ∧
      Replays moves programs (run fuel) ((Machine.start document {} trace).record
        (.executing programs.flatten.length trace)) o) ∧
    ∃ o, ∀ fuel, (∀ program ∈ programs, Program.nesting program ≤ fuel) →
      runEach (execute fuel) programs (Machine.start document {} trace) = some o ∧
      Replays moves programs (execute fuel) (Machine.start document {} trace) o := by
  have hstructured : ∀ program ∈ programs, program.Structured fun _ => True := by
    induction hprograms with
    | nil => exact List.forall_mem_nil _
    | cons hp _ ih => exact List.forall_mem_cons.2 ⟨program_structured hp, ih⟩
  have hnamed := named_start document {} trace
  refine ⟨?_, ?_⟩
  · obtain ⟨o, ho, -⟩ := (Program.structured_flatten hstructured).halts (Nat.le_refl _) []
      ((Machine.start document {} trace).record
        (.executing programs.flatten.length trace)) (.inl rfl)
    refine ⟨o, fun fuel hfuel => ?_⟩
    have hrun := run_mono hfuel ho
    refine ⟨hrun, ?_⟩
    obtain ⟨less, rfl⟩ : ∃ less, fuel = less + 1 :=
      ⟨fuel - 1, by have := le_nesting programs.flatten; omega⟩
    rw [run_flatten] at hrun
    exact replays_of_runEach (fun _ m => ⟨m.log, rfl⟩) hprograms
      (hnamed.of_same rfl rfl rfl rfl) rfl hrun
  · obtain ⟨o, ho⟩ := runEach_ends hstructured (Machine.start document {} trace)
    exact ⟨o, fun fuel hfuel => ⟨ho fuel hfuel,
      replays_of_runEach (fun _ _ => ⟨_, rfl⟩) hprograms hnamed rfl (ho fuel hfuel)⟩⟩

/-- The second of two moves looks for a field in the truth value that the first one has copied. -/
theorem execute_batch_replays_up_to_failure :
    ∃ (moves : List Move) (first second : Program) (e : MachineError) (m : Machine),
      moves = [⟨"$.a", "$.b", none⟩, ⟨"$.b.c", "$.d", none⟩] ∧
      (Machine.start (.object [("a", .bool true)]) {} false).execute 1 (first ++ second) =
        some (.failed e m) ∧
      ¬ e.cause.IsOperationLimit ∧
      Replays moves [first, second] (run 1)
        ((Machine.start (.object [("a", .bool true)]) {} false).record
          (.executing (first ++ second).length false)) (.failed e m) := by
  obtain ⟨first, hfirst⟩ : ∃ first, Move.program ⟨"$.a", "$.b", none⟩ = .ok first := ⟨_, rfl⟩
  obtain ⟨second, hsecond⟩ : ∃ second, Move.program ⟨"$.b.c", "$.d", none⟩ = .ok second := ⟨_, rfl⟩
  have hflatten : [first, second].flatten = first ++ second := by simp
  obtain ⟨hnesting, e, m, hfailed, hcause⟩ : Program.nesting (first ++ second) ≤ 1 ∧ ∃ e m,
      (Machine.start (.object [("a", .bool true)]) {} false).execute 1 (first ++ second) =
        some (.failed e m) ∧ ¬ e.cause.IsOperationLimit := by
    cases hfirst
    cases hsecond
    exact ⟨Nat.le_refl _, _, _, rfl, id⟩
  obtain ⟨⟨o, ho⟩, -⟩ := execute_batch_replays (.cons hfirst (.cons hsecond .nil))
    (.object [("a", .bool true)]) false
  rw [hflatten] at ho
  obtain ⟨hrun, hreplays⟩ := ho 1 hnesting
  cases hrun.symm.trans hfailed
  exact ⟨_, first, second, e, m, rfl, hfailed, hcause, hreplays⟩

end Move

end Reshape
