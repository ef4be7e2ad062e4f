import Reshape.Proofs.Machine.Lockstep
import Reshape.Proofs.Machine.Touches

/-!
# Fresh machines

A reset makes a machine a fresh one on the same document, but for the count of the instructions
that it has completed and for what it has reported. A count that is ahead shows in nothing that a
program does, unless it gets to the ceiling or the program asks for it.

* `Failure.IsOperationLimit` and `StopCondition.IgnoresCount`;
* `Machine.Ahead`, a machine and one that has counted less, and `Ahead.lockstep`: programs run in
  step on the two;
* `Machine.Named.left_reset`, the machine behind a reset;
* `run_reset_foretells`, for programs that start with a reset.
-/

namespace Reshape

/-- The ceiling of instructions was reached. -/
def Failure.IsOperationLimit : Failure → Prop
  | operationLimitExceeded _ => True
  | _ => False

/-- The answer of a stop condition does not depend on how many instructions have been completed. -/
def StopCondition.IgnoresCount : StopCondition → Prop
  | reached .. => True
  | custom predicate =>
    ∀ (view : View) (operations : Nat),
      predicate.holds { view with operations } = predicate.holds view

namespace Machine

/-- The machine `m'` has counted no more instructions than `m`. But for that, and for what they
report, they are the same. No body on the command stack asks for the count. -/
structure Ahead (m m' : Machine) : Prop where
  count : m'.operations ≤ m.operations
  same : ∃ operations trace log, m' = { m with operations, trace, log }
  bodies : ∀ body ∈ m.commands.items, Program.EveryCondition StopCondition.IgnoresCount body

variable {m m' : Machine}

namespace Ahead

theorem announce (h : m.Ahead m') (i : Instruction) : (m.announce i).Ahead (m'.announce i) := by
  obtain ⟨hcount, ⟨_, _, _, rfl⟩, hbodies⟩ := h
  obtain ⟨log, hannounce⟩ := m.announce_eq i
  obtain ⟨log', hannounce'⟩ := announce_eq { m with operations := _, trace := _, log := _ } i
  rw [hannounce, hannounce']
  exact ⟨hcount, ⟨_, _, _, rfl⟩, hbodies⟩

/-- What can be counted on the machine that is ahead can be counted on the other one. -/
theorem complete (h : m.Ahead m') (i : Instruction) :
    (m.complete i).Foretells Ahead Failure.IsOperationLimit (some (m'.complete i)) := by
  obtain ⟨hcount, ⟨operations, _, _, rfl⟩, hbodies⟩ := h
  obtain ⟨log, -, hcomplete⟩ := m.complete_eq i
  obtain ⟨log', -, hcomplete'⟩ := complete_eq { m with operations := _, trace := _, log := _ } i
  rw [hcomplete, hcomplete']
  split
  · exact .inl trivial
  · rename_i hunder
    have hless : operations ≤ m.operations := hcount
    rw [if_neg (show ¬ m.limits.operations ≤ operations by omega)]
    exact ⟨_, rfl, Nat.succ_le_succ hless, ⟨_, _, _, rfl⟩, hbodies⟩

/-- Whatever a machine does that is ahead, the other one does, unless the first one gets to the
ceiling. -/
theorem lockstep : Lockstep StopCondition.IgnoresCount Failure.IsOperationLimit Ahead where
  alike := by
    rintro m _ ⟨-, ⟨_, _, _, rfl⟩, -⟩
    exact ⟨_, _, _, _, rfl⟩
  bodies h := h.bodies
  data := by
    rintro m _ ⟨hcount, ⟨_, _, _, rfl⟩, hbodies⟩ cursor elements values
    exact ⟨hcount, ⟨_, _, _, rfl⟩, hbodies⟩
  control := by
    rintro m _ ⟨hcount, ⟨_, _, _, rfl⟩, -⟩ commands loopLevel loopCounters hbodies
    exact ⟨hcount, ⟨_, _, _, rfl⟩, hbodies⟩
  record := by
    rintro m _ ⟨hcount, ⟨_, _, _, rfl⟩, hbodies⟩ event
    exact ⟨hcount, ⟨_, _, _, rfl⟩, hbodies⟩
  announce h := h.announce
  complete h := h.complete
  custom := by
    rintro m _ predicate ⟨-, ⟨operations, _, _, rfl⟩, -⟩ hignores
    exact hignores m.view operations
  padding := by
    rintro m _ ⟨-, ⟨_, _, _, rfl⟩, -⟩
    exact .inl rfl
  rounds := by
    rintro m _ ⟨-, ⟨_, _, _, rfl⟩, -⟩
    exact .inl rfl
  spawn := by
    rintro m _ ⟨-, ⟨_, _, _, rfl⟩, -⟩ item
    exact ⟨Nat.le_refl _, ⟨_, _, _, rfl⟩, fun _ hbody => nomatch hbody⟩
  rejoin := by
    rintro m _ sub _ ⟨hcount, ⟨_, _, _, rfl⟩, hbodies⟩ -
    exact ⟨hcount, ⟨_, _, _, rfl⟩, hbodies⟩

end Ahead

/-! ### Resets -/

/-- A reset leaves a fresh machine, but for the count and the reports. -/
theorem Named.left_reset (h : m.Named) :
    Effect.reset.left m =
      { start m.document m.limits m.trace with operations := m.operations, log := m.log } := by
  obtain ⟨⟨document, path, ⟨_, paths⟩, ⟨_, states⟩, detached⟩, ⟨_, elements⟩, ⟨_, values⟩,
    ⟨_, commands⟩, loopLevel, loopCounters, operations, limits, trace, log⟩ := m
  obtain ⟨⟨rfl, rfl⟩, rfl, rfl, rfl⟩ := h
  rfl

theorem step_reset_eq (run : Runner) (m : Machine) :
    step run .reset m = some ((Effect.reset.left (m.announce .reset)).complete .reset) := rfl

/-- Behind a reset, two machines on one document differ in their counts and reports only. -/
theorem Named.ahead_of_reset (hm : m.Named) (hm' : m'.Named) (hdocument : m'.document = m.document)
    (hlimits : m'.limits = m.limits) (hcount : m'.operations ≤ m.operations) :
    (Effect.reset.left m).Ahead (Effect.reset.left m') := by
  rw [hm.left_reset, hm'.left_reset, hdocument, hlimits]
  exact ⟨hcount, ⟨_, _, _, rfl⟩, fun _ hbody => nomatch hbody⟩

/-- **A program that starts with a reset sees nothing of what was before** but the document: if it
does not get to the ceiling of instructions, it ends in the same way on every machine on the same
document that has not counted more. -/
theorem run_reset_foretells {rest : Program} {fuel : Nat} {o : Outcome} (hm : m.Named)
    (hm' : m'.Named) (hdocument : m'.document = m.document) (hlimits : m'.limits = m.limits)
    (hcount : m'.operations ≤ m.operations)
    (hrest : Program.EveryCondition StopCondition.IgnoresCount rest)
    (ho : run fuel (.reset :: rest) m = some o) :
    o.Foretells Ahead Failure.IsOperationLimit (run fuel (.reset :: rest) m') := by
  cases fuel with
  | zero => cases ho
  | succ fuel =>
    have hannounced {m : Machine} (h : m.Named) : (m.announce .reset).Named :=
      Named.law.announce m _ h
    have hreset : (Effect.reset.left (m.announce .reset)).Ahead
        (Effect.reset.left (m'.announce .reset)) := by
      obtain ⟨log, hlog⟩ := m.announce_eq .reset
      obtain ⟨log', hlog'⟩ := m'.announce_eq .reset
      refine (hannounced hm).ahead_of_reset (hannounced hm') ?_ ?_ ?_ <;> rw [hlog, hlog']
      · exact hdocument
      · exact hlimits
      · exact hcount
    have hfirst := hreset.complete .reset
    rw [run, inSequence, step_reset_eq] at ho ⊢
    generalize (Effect.reset.left (m.announce .reset)).complete .reset = first at hfirst ho
    cases first with
    | done m₁ =>
      obtain ⟨m₁', hfirst', h₁⟩ := hfirst
      rw [Option.some.inj hfirst']
      exact Ahead.lockstep.run (fuel + 1) rest m₁ m₁' o hrest h₁ ho
    | failed e m₁ =>
      cases ho
      rcases hfirst with hlimit | ⟨m₁', hfirst', h₁⟩
      · exact .inl hlimit
      · rw [Option.some.inj hfirst']
        exact .inr ⟨m₁', rfl, h₁⟩

end Machine

end Reshape
