import Reshape.Proofs.Machine.Lockstep

/-!
# Higher ceilings

The ceilings of a machine only ever stop it. What a program does under some ceilings it does under
higher ones too, unless it failed at one of them: `execute_of_limits_le`. Its own questions about the
machine may not be about the ceilings.

* `Failure.IsLimit` and `StopCondition.IgnoresLimits`;
* `Machine.Raised`, two machines under lower and higher ceilings, and `Raised.lockstep`.
-/

namespace Reshape

/-- Some ceilings are no higher than others. -/
instance : LE Limits where
  le lower higher := lower.loopIterations ≤ higher.loopIterations ∧
    lower.operations ≤ higher.operations ∧ lower.arrayPadding ≤ higher.arrayPadding

/-- A ceiling was reached. -/
def Failure.IsLimit : Failure → Prop
  | loopLimitExceeded .. => True
  | operationLimitExceeded _ => True
  | paddingLimitExceeded .. => True
  | _ => False

/-- The answer of a stop condition does not depend on the ceilings. -/
def StopCondition.IgnoresLimits : StopCondition → Prop
  | reached .. => True
  | custom predicate =>
    ∀ (view : View) (limits : Limits), predicate.holds { view with limits } = predicate.holds view

namespace Machine

/-- The machine under other ceilings. -/
def withLimits (limits : Limits) (m : Machine) : Machine := { m with limits }

/-- A machine, and the same one under other ceilings. No body on the command stack asks about
ceilings. -/
structure Raised (lower higher : Limits) (m m' : Machine) : Prop where
  limits : m.limits = lower
  raised : m' = m.withLimits higher
  bodies : ∀ body ∈ m.commands.items, Program.EveryCondition StopCondition.IgnoresLimits body

theorem announce_withLimits (limits : Limits) (m : Machine) (i : Instruction) :
    (m.withLimits limits).announce i = (m.announce i).withLimits limits := by
  unfold announce
  rw [apply_ite (withLimits limits)]
  rfl

theorem confirm_withLimits (limits : Limits) (m : Machine) (i : Instruction) :
    (m.withLimits limits).confirm i = (m.confirm i).withLimits limits := by
  unfold confirm
  rw [apply_ite (withLimits limits)]
  rfl

variable {lower higher : Limits} {m m' : Machine}

/-- Under a higher ceiling, an instruction that could be counted can be counted. -/
theorem Raised.complete (hle : lower ≤ higher) (h : Raised lower higher m m') (i : Instruction) :
    (m.complete i).Foretells (Raised lower higher) Failure.IsLimit (some (m'.complete i)) := by
  obtain ⟨rfl, rfl, hbodies⟩ := h
  have hcount : m.limits.operations ≤ higher.operations := hle.2.1
  obtain ⟨log, hlog, hcomplete⟩ := m.complete_eq i
  obtain ⟨log', hlog', hcomplete'⟩ := (m.withLimits higher).complete_eq i
  have hsame : log' = log := by
    rw [← hlog, ← hlog', confirm_withLimits]
    rfl
  rw [hcomplete, hcomplete', hsame]
  split
  · exact .inl trivial
  · rename_i hunder
    have hunder' : ¬ (m.withLimits higher).limits.operations ≤ (m.withLimits higher).operations := by
      show ¬ higher.operations ≤ m.operations
      omega
    rw [if_neg hunder']
    exact ⟨_, rfl, rfl, rfl, hbodies⟩

/-- Whatever a machine does that is no failure at a ceiling, it does under higher ceilings. -/
theorem Raised.lockstep (hle : lower ≤ higher) :
    Lockstep StopCondition.IgnoresLimits Failure.IsLimit (Raised lower higher) where
  alike := by
    rintro m _ ⟨rfl, rfl, _⟩
    exact ⟨_, _, _, _, rfl⟩
  bodies h := h.bodies
  data := by
    rintro m _ ⟨rfl, rfl, hbodies⟩ cursor elements values
    exact ⟨rfl, rfl, hbodies⟩
  control := by
    rintro m _ ⟨rfl, rfl, _⟩ commands loopLevel loopCounters hbodies
    exact ⟨rfl, rfl, hbodies⟩
  record := by
    rintro m _ ⟨rfl, rfl, hbodies⟩ event
    exact ⟨rfl, rfl, hbodies⟩
  announce := by
    rintro m _ ⟨rfl, rfl, hbodies⟩ i
    rw [announce_withLimits]
    obtain ⟨_, hannounced⟩ := m.announce_eq i
    rw [hannounced]
    exact ⟨rfl, rfl, hbodies⟩
  complete h i := h.complete hle i
  custom := by
    rintro m _ predicate ⟨rfl, rfl, _⟩ hignores
    exact hignores m.view higher
  padding := by
    rintro m _ ⟨rfl, rfl, _⟩
    exact .inr ⟨hle.2.2, fun _ _ _ => trivial⟩
  rounds := by
    rintro m _ ⟨rfl, rfl, _⟩
    exact .inr ⟨hle.1, fun _ _ => trivial⟩
  spawn := by
    rintro m _ ⟨rfl, rfl, _⟩ item
    exact ⟨rfl, rfl, fun _ hbody => nomatch hbody⟩
  rejoin := by
    rintro m _ sub _ ⟨rfl, rfl, hbodies⟩ ⟨_, rfl, _⟩
    exact ⟨rfl, rfl, hbodies⟩

/-- **Ceilings only ever stop a program.** Take any program whose own loop conditions, at every
depth, do not ask about the ceilings. If it succeeds, or fails for another reason than a ceiling,
then under higher ceilings it ends in the same way: with the same error if it fails, and on the same
machine but for the ceilings themselves. -/
theorem execute_of_limits_le {document : Json} {limits limits' : Limits} {trace : Bool}
    {program : Program} {fuel : Nat} {o : Outcome} (hle : limits ≤ limits')
    (hprogram : Program.EveryCondition StopCondition.IgnoresLimits program)
    (ho : (start document limits trace).execute fuel program = some o)
    (hcause : ∀ e, o.error? = some e → ¬ e.cause.IsLimit) :
    (start document limits' trace).execute fuel program = some (o.map (withLimits limits')) := by
  have hstart : Raised limits limits'
      ((start document limits trace).record (.executing program.length trace))
      ((start document limits' trace).record (.executing program.length trace)) :=
    ⟨rfl, rfl, fun _ hbody => nomatch hbody⟩
  have hrun := (Raised.lockstep hle).run fuel program _ _ o hprogram hstart ho
  cases o with
  | done m =>
    obtain ⟨_, hrun', _, rfl, _⟩ := hrun
    exact hrun'
  | failed e m =>
    rcases hrun with hlimit | ⟨_, hrun', _, rfl, _⟩
    · exact (hcause e rfl hlimit).elim
    · exact hrun'

/-- The second round of a loop fails to enter a field of null, under a ceiling of two rounds and
under the usual one. -/
theorem execute_of_limits_le_in_loop :
    ∃ e m, (start (.object []) { loopIterations := 2, operations := 2 } false).execute 2
        [.pushCommand [.moveIntoField .leaf "a"],
          .loopUntil (.custom ⟨0, View.elementsAtLeast 1⟩)] = some (.failed e m) ∧
      ¬ e.cause.IsLimit ∧
      (start (.object []) {} false).execute 2
        [.pushCommand [.moveIntoField .leaf "a"],
          .loopUntil (.custom ⟨0, View.elementsAtLeast 1⟩)] =
        some (.failed e (m.withLimits {})) := by
  have hrun : ∃ e m, (start (.object []) { loopIterations := 2, operations := 2 } false).execute 2
      [.pushCommand [.moveIntoField .leaf "a"],
        .loopUntil (.custom ⟨0, View.elementsAtLeast 1⟩)] = some (.failed e m) ∧
      ¬ e.cause.IsLimit := ⟨_, _, rfl, id⟩
  obtain ⟨e, m, hfailed, hcause⟩ := hrun
  refine ⟨e, m, hfailed, hcause, execute_of_limits_le ?_ ?_ hfailed ?_⟩
  · exact ⟨by decide, by decide, by decide⟩
  · exact ⟨⟨trivial, trivial⟩, fun _ _ => rfl, trivial⟩
  · rintro _ ⟨⟩
    exact hcause

end Machine

end Reshape
