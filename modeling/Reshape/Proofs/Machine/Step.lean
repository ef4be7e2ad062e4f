import Reshape.Machine.Fuel
import Reshape.Proofs.Machine.Footprint

/-!
# One instruction from its start to its count

What the parts of a step change of a machine, for every way of running bodies.

* `Outcome.finish` and `step_eq`: a step announces an instruction, carries it out, and counts it or
  puts its frame around its error;
* `inSequence_append`: one program behind another, and `exists_of_inSequence_failed`, where a program
  fails;
* `announce_eq` and `complete_eq`, what is changed in front of an instruction and behind it;
* `jump_eq`, `mapItems_frame` and `mapArray_frame`, the instructions that run bodies without the
  command stack.
-/

namespace Reshape

/-- The end of an instruction that has been carried out: it is counted, or its frame is put around
its error. -/
def Outcome.finish (i : Instruction) : Outcome → Outcome
  | .done m => m.complete i
  | .failed e m => m.fail i e

/-- A local effect leaves a machine that differs in the cursor and the stacks of data only. -/
theorem Effect.Local.machine_ofEffect {e : Effect Unit} (h : e.Local) (m : Machine) :
    ∃ cursor elements values,
      (Outcome.ofEffect e m).machine = { m with cursor, elements, values } := by
  rw [Effect.machine_ofEffect]
  exact h m

theorem inSequence_append (step : Instruction → Machine → Option Outcome) (p q : Program)
    (m : Machine) :
    inSequence step (p ++ q) m = match inSequence step p m with
      | some (.done m) => inSequence step q m
      | other => other := by
  induction p generalizing m with
  | nil => rfl
  | cons i rest ih =>
    rw [List.cons_append, inSequence, inSequence]
    cases hi : step i m with
    | none => rfl
    | some o =>
      cases o with
      | done m => exact ih m
      | failed e m => rfl

/-- A program that fails does so at one of its instructions, behind others that succeed. -/
theorem exists_of_inSequence_failed {step : Instruction → Machine → Option Outcome}
    {program : Program} {m m' : Machine} {e : MachineError}
    (h : inSequence step program m = some (.failed e m')) :
    ∃ before i after m₁, program = before ++ i :: after ∧
      inSequence step before m = some (.done m₁) ∧ step i m₁ = some (.failed e m') := by
  induction program generalizing m with
  | nil => cases h
  | cons i rest ih =>
    rw [inSequence] at h
    split at h
    next m₁ hi =>
      obtain ⟨before, j, after, m₂, rfl, hbefore, hj⟩ := ih h
      refine ⟨i :: before, j, after, m₂, rfl, ?_, hj⟩
      rw [inSequence, hi]
      exact hbefore
    next => exact ⟨[], i, rest, m, rfl, rfl, h⟩

namespace Machine

variable {run : Runner} {m m' : Machine} {i : Instruction} {o : Outcome}

theorem step_eq (run : Runner) (i : Instruction) (m : Machine) :
    step run i m = ((m.announce i).carryOut run i).map (Outcome.finish i) := by
  unfold step
  cases (m.announce i).carryOut run i with
  | none => rfl
  | some o => cases o <;> rfl

theorem step_eq_some (h : (m.announce i).carryOut run i = some o) :
    step run i m = some (o.finish i) := by
  rw [step_eq, h]
  rfl

/-! ### In front of an instruction and behind it -/

theorem announce_eq (m : Machine) (i : Instruction) : ∃ log, m.announce i = { m with log } := by
  unfold announce
  split
  · exact ⟨_, rfl⟩
  · exact ⟨m.log, rfl⟩

theorem confirm_eq (m : Machine) (i : Instruction) : ∃ log, m.confirm i = { m with log } := by
  unfold confirm
  split
  · exact ⟨_, rfl⟩
  · exact ⟨m.log, rfl⟩

/-- An instruction is counted, and the run fails if it was one too many. -/
theorem complete_eq (m : Machine) (i : Instruction) :
    ∃ log, (m.confirm i).log = log ∧ m.complete i =
      if m.limits.operations ≤ m.operations then
        .bare (.operationLimitExceeded m.limits.operations)
          { m with log, operations := m.operations + 1 }
      else .done { m with log, operations := m.operations + 1 } := by
  obtain ⟨log, hlog⟩ := m.confirm_eq i
  refine ⟨log, by rw [hlog], ?_⟩
  unfold complete
  simp only [hlog, Nat.lt_succ_iff]

theorem run_singleton (fuel : Nat) (i : Instruction) (m : Machine) :
    Machine.run (fuel + 1) [i] m = step (Machine.run fuel) i m := by
  rw [Machine.run, inSequence]
  split
  · rename_i hstep
    rw [hstep, inSequence]
  · rfl

/-- A program that succeeds does so by way of its front. -/
theorem exists_of_run_append {fuel : Nat} {front rest : Program}
    (h : Machine.run fuel (front ++ rest) m = some (.done m')) :
    ∃ m₁, Machine.run fuel front m = some (.done m₁) ∧
      Machine.run fuel rest m₁ = some (.done m') := by
  cases fuel with
  | zero => cases h
  | succ fuel =>
    rw [Machine.run, inSequence_append] at h
    split at h
    next m₁ hfront => exact ⟨m₁, hfront, h⟩
    next hnot => exact (hnot _ h).elim

theorem exists_of_run_cons {fuel : Nat} {rest : Program}
    (h : Machine.run (fuel + 1) (i :: rest) m = some (.done m')) :
    ∃ m₁, step (Machine.run fuel) i m = some (.done m₁) ∧
      Machine.run (fuel + 1) rest m₁ = some (.done m') := by
  rw [Machine.run, inSequence] at h
  split at h
  next m₁ hstep => exact ⟨m₁, hstep, h⟩
  next hnot => exact (hnot m' h).elim

/-! ### Bodies that are not on the command stack -/

theorem jump_eq (run : Runner) (expected : Bool) (inner : Instruction) (m : Machine) :
    m.jump run expected inner = match m.values.pop with
      | .error e => some (.bare (.stackUnderflow e) m)
      | .ok (value, values) =>
        if value.truthiness = some expected then run [inner] { m with values }
        else some (.done { m with values }) := by
  unfold jump
  rw [Effect.run_takeValue]
  cases m.values.pop <;> rfl

/-- The machines of the items report to the log of the machine that runs them, and change nothing
else of it. -/
theorem mapItems_frame {run : Machine → Option Outcome} {items : List Json} {index : Nat}
    {result : Except MachineError (List Json)}
    (h : mapItems run m index items = some (m', result)) : ∃ log, m' = { m with log } := by
  induction items generalizing m index result with
  | nil =>
    cases h
    exact ⟨m'.log, rfl⟩
  | cons item rest ih =>
    unfold mapItems at h
    simp only at h
    split at h
    · cases h
    · cases h
      exact ⟨_, rfl⟩
    · split at h
      · rename_i hrest
        cases h
        obtain ⟨log, rfl⟩ := ih hrest
        exact ⟨log, rfl⟩
      · obtain ⟨log, rfl⟩ := ih h
        exact ⟨log, rfl⟩

theorem mapItems_ends {run : Machine → Option Outcome} (hrun : ∀ m, ∃ o, run m = some o)
    (items : List Json) (m : Machine) (index : Nat) :
    ∃ result, mapItems run m index items = some result := by
  induction items generalizing m index with
  | nil => exact ⟨_, rfl⟩
  | cons item rest ih =>
    unfold mapItems
    simp only
    obtain ⟨o, ho⟩ := hrun ((m.record (.subMachine index m.cursor.path)).spawn item)
    rw [ho]
    cases o with
    | failed e sub => exact ⟨_, rfl⟩
    | done sub =>
      obtain ⟨⟨m', result⟩, hrest⟩ :=
        ih { m.record (.subMachine index m.cursor.path) with log := sub.log } (index + 1)
      simp only [hrest]
      cases result <;> exact ⟨_, rfl⟩

theorem run_currentItems (instruction : String) (m : Machine) :
    (∃ items, (Effect.currentItems instruction).run m = .ok items m) ∨
      ∃ cause, (Effect.currentItems instruction).run m = .error cause m := by
  unfold Effect.currentItems
  rw [EStateM.run_bind, Effect.run_current]
  cases m.cursor.current with
  | error e => exact .inr ⟨_, rfl⟩
  | ok node =>
    cases node with
    | array items => exact .inl ⟨items, rfl⟩
    | _ => exact .inr ⟨_, rfl⟩

theorem run_currentItems_of_current {items : List Json}
    (h : m.cursor.current = .ok (.array items)) (instruction : String) :
    (Effect.currentItems instruction).run m = .ok items m := by
  unfold Effect.currentItems
  rw [EStateM.run_bind, Effect.run_current, h]
  rfl

theorem current_of_run_currentItems {items : List Json} {instruction : String}
    (h : (Effect.currentItems instruction).run m = .ok items m') :
    m.cursor.current = .ok (.array items) := by
  unfold Effect.currentItems at h
  rw [EStateM.run_bind, Effect.run_current] at h
  cases hcurrent : m.cursor.current with
  | error e =>
    rw [hcurrent] at h
    cases h
  | ok node =>
    rw [hcurrent] at h
    cases node <;> cases h
    rfl

/-- The items of an array are replaced by a write to the cursor. -/
theorem mapArray_frame {body : Program} (h : m.mapArray run body = some o) :
    ∃ cursor elements values log, o.machine = { m with cursor, elements, values, log } := by
  unfold mapArray at h
  rcases run_currentItems "MapArray" m with ⟨items, hitems⟩ | ⟨cause, hcause⟩
  · rw [hitems] at h
    simp only at h
    split at h
    · cases h
    · rename_i hmapped
      cases h
      obtain ⟨log, rfl⟩ := mapItems_frame hmapped
      exact ⟨m.cursor, m.elements, m.values, log, rfl⟩
    · rename_i mapped hmapped
      cases h
      obtain ⟨log, rfl⟩ := mapItems_frame hmapped
      obtain ⟨cursor, elements, values, hleft⟩ :=
        (Effect.Local.write (.array mapped)).machine_ofEffect { m with log }
      exact ⟨cursor, elements, values, log, hleft⟩
  · rw [hcause] at h
    cases h
    exact ⟨m.cursor, m.elements, m.values, m.log, rfl⟩

theorem mapArray_ends {body : Program} (hrun : ∀ m, ∃ o, run body m = some o) (m : Machine) :
    ∃ o, m.mapArray run body = some o := by
  unfold mapArray
  rcases run_currentItems "MapArray" m with ⟨items, hitems⟩ | ⟨cause, hcause⟩
  · obtain ⟨⟨m', result⟩, hmapped⟩ := mapItems_ends hrun items m 0
    simp only [hitems, hmapped]
    cases result <;> exact ⟨_, rfl⟩
  · rw [hcause]
    exact ⟨_, rfl⟩

end Machine

end Reshape
