import Reshape.Proofs.Machine.Budget

/-!
# The count of a machine

A machine counts each instruction that it completes, and nothing takes the count back. So a call
that succeeds has counted the instructions of its program at least, and has stayed under the
ceiling; a machine that has reached its ceiling has no such call left.

* `Outcome.counts_law`: no run takes the count back;
* `lt_of_step` and `length_le_of_run`: each instruction of a program that succeeds is counted;
* `execute_accounts`, for calls one after the other.
-/

namespace Reshape

/-- The count of a machine does not go down in a run. -/
def Outcome.Counts (m : Machine) (o : Outcome) : Prop := m.operations ≤ o.machine.operations

theorem Outcome.counts_law : Outcome.Law Outcome.Counts where
  refl m := Nat.le_refl m.operations
  bare m _ := Nat.le_refl m.operations
  trans h ho := Nat.le_trans h ho
  announce m i := by
    obtain ⟨log, hannounce⟩ := m.announce_eq i
    rw [hannounce]
    exact Nat.le_refl _
  perform i m := by
    obtain ⟨-, hcount, -⟩ := i.perform_accounts m
    rw [← Effect.machine_ofEffect] at hcount
    exact Nat.le_of_eq hcount.symm
  complete m i := by
    obtain ⟨log, -, hcomplete⟩ := m.complete_eq i
    rw [hcomplete]
    split <;> exact Nat.le_succ _
  fail _ h := h
  setCounter m _ _ := Nat.le_refl m.operations
  loop {m o} h := by
    have hloop : m.operations ≤ o.machine.operations := h
    cases o <;> exact hloop
  item {m index item o} _ := by cases o <;> exact Nat.le_refl m.operations

namespace Machine

variable {m m' later : Machine} {i : Instruction} {program : Program} {fuel : Nat} {o : Outcome}

/-- An instruction that succeeds is counted, on top of what it has run itself. -/
theorem lt_of_step (h : step (run fuel) i m = some (.done m')) : m.operations < m'.operations := by
  rw [step_eq] at h
  obtain ⟨carried, hcarried, hfinish⟩ := Option.map_eq_some_iff.1 h
  have hlaw := Outcome.counts_law
  have hcarry : m.operations ≤ carried.machine.operations :=
    hlaw.trans (hlaw.announce m i) (hlaw.carryOut (hlaw.run fuel) hcarried)
  cases carried with
  | failed e m₁ => cases hfinish
  | done m₁ =>
    obtain ⟨log, -, hcomplete⟩ := m₁.complete_eq i
    rw [Outcome.finish, hcomplete] at hfinish
    split at hfinish <;> cases hfinish
    exact Nat.lt_succ_of_le hcarry

/-- All instructions of a program that succeeds are counted. -/
theorem length_le_of_run (h : run fuel program m = some (.done m')) :
    m.operations + program.length ≤ m'.operations := by
  cases fuel with
  | zero => cases h
  | succ fuel =>
    rw [run] at h
    induction program generalizing m with
    | nil =>
      cases h
      exact Nat.le_refl _
    | cons i rest ih =>
      rw [inSequence] at h
      split at h
      · rename_i m₁ hstep
        have hfirst := lt_of_step hstep
        have hrest := ih h
        rw [List.length_cons]
        omega
      · rename_i hnot
        exact (hnot m' h).elim

/-! ### Calls -/

theorem limits_of_execute (ho : m.execute fuel program = some o) : o.machine.limits = m.limits :=
  (Outcome.charges_law.run fuel program _ o ho).limits

theorem operations_le_of_execute (ho : m.execute fuel program = some o) :
    m.operations ≤ o.machine.operations :=
  Outcome.counts_law.run fuel program (m.record (.executing program.length m.trace)) o ho

/-- Calls leave the ceilings as they are, and add to the count. -/
theorem Executed.accounts (h : m.Executed later) :
    later.limits = m.limits ∧ m.operations ≤ later.operations := by
  induction h with
  | refl => exact ⟨rfl, Nat.le_refl _⟩
  | next _ ho ih =>
    exact ⟨(limits_of_execute ho).trans ih.1, Nat.le_trans ih.2 (operations_le_of_execute ho)⟩

/-- **The count of a machine over a call**, on a machine that earlier calls have left in whatever
state. The count does not go down, and passes the ceiling, or what it was if that is more, by one at
most. A call that succeeds has counted each instruction of its program, and ends within the ceiling
if there are any. So a machine that has come to its ceiling fails every call from then on that is to
execute anything, also if that is a reset. -/
theorem execute_accounts (hlater : m.Executed later) (ho : later.execute fuel program = some o) :
    later.operations ≤ o.machine.operations ∧
      o.machine.operations ≤ max later.operations m.limits.operations + 1 ∧
      (∀ m', o = .done m' → later.operations + program.length ≤ m'.operations ∧
        (program ≠ [] → m'.operations ≤ m.limits.operations)) ∧
      (m.limits.operations ≤ m.operations → program ≠ [] → ∃ e m', o = .failed e m') := by
  obtain ⟨hlimits, hbefore⟩ := hlater.accounts
  have hcount : o.machine.operations ≤ max later.operations m.limits.operations +
      if o.isDone then 0 else 1 := by
    rw [← hlimits]
    exact (Outcome.charges_law.run fuel program _ o ho).count
  have hdone (m' : Machine) (h : o = .done m') :
      later.operations + program.length ≤ m'.operations ∧
        m'.operations ≤ max later.operations m.limits.operations := by
    subst h
    have hrun : run fuel program (later.record (.executing program.length later.trace)) =
        some (.done m') := ho
    have hlength := length_le_of_run hrun
    exact ⟨hlength, hcount⟩
  refine ⟨operations_le_of_execute ho, ?_, fun m' h => ?_, fun hfull hprogram => ?_⟩
  · split at hcount <;> omega
  · obtain ⟨hlow, hhigh⟩ := hdone m' h
    refine ⟨hlow, fun hprogram => ?_⟩
    have hlength := List.length_pos_iff.2 hprogram
    omega
  · cases o with
    | failed e m' => exact ⟨e, m', rfl⟩
    | done m' =>
      -- It would have counted something without passing what it had counted before.
      obtain ⟨hlow, hhigh⟩ := hdone m' rfl
      have hlength := List.length_pos_iff.2 hprogram
      omega

/-- Two instructions are one too many, and then a reset is. -/
theorem execute_accounts_of_reset :
    ∃ e m o, (start .null { operations := 1 } false).execute 1 [.moveToRoot, .moveToRoot] =
        some (.failed e m) ∧
      m.operations = 2 ∧ m.execute 1 [.reset] = some o ∧ o.machine.operations ≤ 3 ∧
      ∃ e m', o = .failed e m' := by
  obtain ⟨e, m, hm, hlimits, hcount⟩ : ∃ e m,
      (start .null { operations := 1 } false).execute 1 [.moveToRoot, .moveToRoot] =
        some (.failed e m) ∧ m.limits.operations = 1 ∧ m.operations = 2 := ⟨_, _, rfl, rfl, rfl⟩
  obtain ⟨o, ho⟩ : ∃ o, m.execute 1 [.reset] = some o := by
    cases hm
    exact ⟨_, rfl⟩
  obtain ⟨-, hle, -, hfails⟩ := execute_accounts .refl ho
  refine ⟨e, m, o, hm, hcount, ho, ?_, hfails (by omega) (List.cons_ne_nil _ _)⟩
  rw [hlimits, hcount] at hle
  exact hle

end Machine

end Reshape
